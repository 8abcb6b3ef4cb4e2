import Xv6.Fs.Syscalls
import Xv6.Lib.Weigh

/-!
# Between the calls

When no call is in progress the references to inodes are those of the open files and of the working directories.

* `holders`, `World.idle` : these references;
* `Quiet n`, `Idle` : what the calls keep, with the references of the calls gone, inside and outside of a transaction;
* `call_spec` : **every call leads from an idle state to an idle state**, and `runCalls_spec` from it every sequence of
  calls.
-/

namespace Xv6.Fs
open Hoare Function

/-! ## References -/

/-- The reference of an open file. -/
def File.holds (ip : Ip) (x : File) : Nat := if x.type ≠ .none ∧ x.ip = ip then 1 else 0

/-- The reference of a working directory. -/
def cwdHolds (ip : Ip) (c : Option Ip) : Nat := if c = some ip then 1 else 0

@[irreducible]
def holders (files : Fin nfile → File) (cwd : Fin nproc → Option Ip) (ip : Ip) : Nat :=
  weigh (File.holds ip) files + weigh (cwdHolds ip) cwd

section
variable (files : Fin nfile → File) (cwd : Fin nproc → Option Ip) (ip : Ip)

theorem holders_setFile (f : Fin nfile) (x : File) :
    holders (update files f x) cwd ip + (files f).holds ip = holders files cwd ip + x.holds ip := by
  have := weigh_update (File.holds ip) files f x
  rw [holders, holders]
  omega

theorem holders_setCwd (p : Fin nproc) (c : Option Ip) :
    holders files (update cwd p c) ip + cwdHolds ip (cwd p) = holders files cwd ip + cwdHolds ip c := by
  have := weigh_update (cwdHolds ip) cwd p c
  rw [holders, holders]
  omega

variable {files cwd ip}

theorem holders_file_pos {f : Fin nfile} (ht : (files f).type ≠ .none) (hip : (files f).ip = ip) :
    0 < holders files cwd ip := by
  have hle := le_weigh (File.holds ip) files f
  rw [File.holds, if_pos ⟨ht, hip⟩] at hle
  rw [holders]
  omega

theorem holders_cwd_pos {p : Fin nproc} (h : cwd p = some ip) : 0 < holders files cwd ip := by
  have hle := le_weigh (cwdHolds ip) cwd p
  rw [cwdHolds, if_pos h] at hle
  rw [holders]
  omega

end

/-- A file is open for writing on `ip`. -/
def Plain (files : Fin nfile → File) (ip : Ip) : Prop :=
  ∃ f, (files f).type = .inode ∧ (files f).writable = true ∧ (files f).ip = ip

/-- The references when no call is in progress; `n` calls are in a transaction. -/
def World.idle (files : Fin nfile → File) (cwd : Fin nproc → Option Ip) (base : Image) (n : Nat) : World where
  hold := holders files cwd
  locks _ := false
  files := files
  cwd := cwd
  base := base
  outstanding := n
  plain := Plain files
  plain_held ip hp := by
    obtain ⟨f, ht, -, hip⟩ := hp
    exact holders_file_pos (by rw [ht]; decide) hip

theorem World.hold_take (w : World) (ip jp : Ip) : (w.take ip).hold jp = w.hold jp + if ip = jp then 1 else 0 := by
  by_cases h : jp = ip
  · rw [h, w.hold_take_self, if_pos rfl]
  · rw [w.hold_take_of_ne h, if_neg (Ne.symm h), Nat.add_zero]

structure Quiet (sb : Superblock) (n : Nat) (s : FsState) : Prop where
  ok : ∃ base, Ok sb (World.idle s.ftable s.cwd base n) [] .clean s
  counted : ∀ f, (s.ftable f).type ≠ .none → 0 < (s.ftable f).ref

/-- The state between two calls. -/
structure Idle (sb : Superblock) (s : FsState) : Prop where
  quiet : Quiet sb 0 s
  lh : s.lh = []

section
variable {sb : Superblock} {w w' : World} {X : List Nat} {s t : FsState} {ip : Ip} {n : Nat}
  {files : Fin nfile → File} {cwd : Fin nproc → Option Ip} {base : Image} {f : Fin nfile} {x : File} {p : Fin nproc}
  {old : Ip}

/-- The files and working directories change, and with them what the references are for. -/
theorem Ok.retable (h : Ok sb w X .clean s) (hfiles : w'.files = files) (hcwd : w'.cwd = cwd)
    (hhold : ∀ ip, w'.hold ip = w.hold ip) (hlocks : w'.locks = w.locks) (hbase : w'.base = w.base)
    (hout : w'.outstanding = w.outstanding)
    (hplain : ∀ ip, w'.plain ip → w.plain ip ∨ ((s.itable ip).valid = true ∧ (s.itable ip).din.type ≠ tDir)) :
    Ok sb w' X .clean { s with ftable := files, cwd := cwd }  where
  sound := h.sound
  entry ip := by
    have he := h.entry ip
    constructor
    · rw [hhold]
      exact he.ref
    · rw [hlocks]
      exact he.locked
    · rw [hhold]
      exact he.inum
    · rw [hhold]
      exact he.synced
    · rw [hhold]
      exact he.live
    · rw [hhold, hlocks]
      exact he.valid
    · intro hp
      rcases hplain ip hp with hw | hd
      · exact he.plain hw
      · exact hd
  unique ip jp hi hj he := h.unique ip jp (by rwa [← hhold]) (by rwa [← hhold]) he
  files := hfiles.symm
  cwd := hcwd.symm
  outstanding := h.outstanding.trans hout.symm
  logged b hb := (h.logged b hb).trans (congrFun hbase b).symm

/-- The same references, for other reasons. -/
theorem Ok.rehold (h : Ok sb w X .clean s) (hfiles : w'.files = w.files) (hcwd : w'.cwd = w.cwd)
    (hhold : ∀ ip, w'.hold ip = w.hold ip) (hlocks : w'.locks = w.locks) (hbase : w'.base = w.base)
    (hout : w'.outstanding = w.outstanding) (hplain : w'.plain = w.plain) : Ok sb w' X .clean s := by
  have hok := h.retable hfiles hcwd hhold hlocks hbase hout fun ip hp => .inl (hplain ▸ hp)
  rwa [← h.files, ← h.cwd] at hok

theorem Quiet.of_ok (h : Ok sb (World.idle files cwd base n) [] .clean t)
    (hc : ∀ f, (files f).type ≠ .none → 0 < (files f).ref) : Quiet sb n t := by
  have hf : t.ftable = files := h.files
  have hd : t.cwd = cwd := h.cwd
  subst hf hd
  exact ⟨⟨base, h⟩, hc⟩

/-- A program that keeps the references of its caller keeps a quiet state. -/
theorem Quiet.keeps {A : Type} {m : FsM A} (h : Quiet sb n s)
    (hm : ∀ w, Ok sb w [] .clean s → (∀ jp, w.locks jp = true → 0 < w.hold jp) →
      (∀ p jp, w.cwd p = some jp → 0 < w.hold jp) → Safe m s fun _ t => Ok sb w [] .clean t) :
    Safe m s fun _ t => Quiet sb n t := by
  obtain ⟨base, hok⟩ := h.ok
  refine (hm _ hok (fun jp hl => Bool.noConfusion hl) fun p jp hp => holders_cwd_pos hp).mono fun _ t ht => ?_
  exact Quiet.of_ok ht h.counted

/-! ## Transactions -/

theorem Ok.beginOp (h : Ok sb w X .clean s) :
    Ok sb { w with outstanding := w.outstanding + 1 } X .clean { s with outstanding := s.outstanding + 1 } :=
  { h with
    outstanding := congrArg (· + 1) h.outstanding
    entry := fun ip => { h.entry ip with } }

/-- `end_op()` commits: what is on the disk is the base of the next transaction. -/
theorem Ok.endOp (h : Ok sb w X .clean s) :
    Ok sb { w with outstanding := w.outstanding - 1, base := s.disk } X .clean
      { s with outstanding := s.outstanding - 1, lh := [] } :=
  { h with
    outstanding := congrArg (· - 1) h.outstanding
    logged := fun _ _ => rfl
    entry := fun ip => { h.entry ip with } }

theorem Quiet.beginOp (h : Quiet sb n s) : Quiet sb (n + 1) { s with outstanding := s.outstanding + 1 } := by
  obtain ⟨base, hok⟩ := h.ok
  exact ⟨⟨base, hok.beginOp⟩, h.counted⟩

theorem Quiet.endOp (h : Quiet sb 1 s) : Idle sb { s with outstanding := s.outstanding - 1, lh := [] } := by
  obtain ⟨base, hok⟩ := h.ok
  exact ⟨⟨⟨s.disk, hok.endOp⟩, h.counted⟩, rfl⟩

theorem transaction_spec {m : FsM Int} (h : Idle sb s)
    (hm : ∀ t, Quiet sb 1 t → Safe m t fun _ u => Quiet sb 1 u) : Safe (transaction m) s fun _ t => Idle sb t :=
  Runs.modify_bind (.seq (hm _ h.quiet.beginOp) fun _ _ hu => .modify_bind (.pure hu.endOp))

/-! ## Files -/

/-- A change of the file `f` that keeps what it refers to. -/
theorem holders_of_same (htype : x.type = (files f).type) (hip : x.type ≠ .none → x.ip = (files f).ip) (jp : Ip) :
    holders (update files f x) cwd jp = holders files cwd jp := by
  have hsum := holders_setFile files cwd jp f x
  have hsame : x.holds jp = (files f).holds jp := by
    by_cases ht : x.type = .none
    · rw [File.holds, File.holds, if_neg (fun hc => hc.1 ht), if_neg (fun hc => hc.1 (by rw [← htype, ht]))]
    · rw [File.holds, File.holds, ← htype, hip ht]
  omega

theorem plain_update (hp : Plain (update files f x) ip) :
    Plain files ip ∨ (x.type = .inode ∧ x.writable = true ∧ x.ip = ip) := by
  obtain ⟨g, hg⟩ := hp
  by_cases hgf : g = f
  · rw [hgf, update_self] at hg
    exact .inr hg
  · rw [update_of_ne hgf] at hg
    exact .inl ⟨g, hg⟩

theorem counted_update (hc : ∀ g, (files g).type ≠ .none → 0 < (files g).ref) (hx : x.type ≠ .none → 0 < x.ref)
    (g : Fin nfile) (hg : (update files f x g).type ≠ .none) : 0 < (update files f x g).ref := by
  by_cases hgf : g = f
  · rw [hgf, update_self] at hg ⊢
    exact hx hg
  · rw [update_of_ne hgf] at hg ⊢
    exact hc g hg

theorem setFile_eq (files : Fin nfile → File) (cwd : Fin nproc → Option Ip) (hf : s.ftable = files) (hc : s.cwd = cwd)
    (f : Fin nfile) (x : File) :
    s.setFile f x = { s with ftable := update files f x, cwd := cwd } := by
  rw [← hf, ← hc]
  rfl

/-- A file that no inode is behind changes, while a call has a reference of its own. -/
theorem Ok.setFile_none (h : Ok sb (((World.idle files cwd base n).take ip).lock ip) X .clean s)
    (hf : (files f).type = .none) (hx : x.type = .none) :
    Ok sb (((World.idle (update files f x) cwd base n).take ip).lock ip) X .clean (s.setFile f x) := by
  rw [setFile_eq files cwd h.files h.cwd]
  refine h.retable rfl rfl (fun jp => ?_) rfl rfl rfl fun jp hp => ?_
  · show ((World.idle _ cwd base n).take ip).hold jp = ((World.idle files cwd base n).take ip).hold jp
    rw [World.hold_take, World.hold_take]
    congr 1
    exact holders_of_same (by rw [hx, hf]) (fun hc => absurd hx hc) jp
  · rcases plain_update hp with hp | ⟨hc, -⟩
    · exact .inl hp
    · exact FileType.noConfusion (hx.symm.trans hc)

theorem filealloc_spec : Safe filealloc s fun r t => match r with
    | none => t = s
    | some f => (s.ftable f).ref = 0 ∧ t = s.setFile f { s.ftable f with ref := 1 } := by
  refine .get_bind ?_
  cases hfind : (List.finRange nfile).find? fun f => decide ((s.ftable f).ref = 0) with
  | none => exact .pure rfl
  | some f => exact .modify_bind (.pure ⟨by simpa using List.find?_some hfind, rfl⟩)

/-- `fileclose()` of a file that has just been allocated. -/
theorem fileclose_fresh (href : (s.ftable f).ref = 1) (htype : (s.ftable f).type = .none) :
    Safe (fileclose sb f) s fun _ t => t = s.setFile f { s.ftable f with ref := 0, type := .none } := by
  refine .get_bind (panic_spec (by decide) fun _ => .ite (fun hc => ?_) fun _ => ?_)
  · rw [href] at hc
    exact absurd hc (by decide)
  · exact .modify_bind (onlyIf_spec (fun hc => absurd htype hc) fun _ => rfl)

/-- The file `x`, which has been allocated, refers to the locked inode `ip` from now on. -/
theorem Ok.install (h : Ok sb (((World.idle files cwd base n).take ip).lock ip) X .clean s)
    (hf : (files f).type = .none) (hx : x.type ≠ .none) (hip : x.ip = ip)
    (hplain : x.writable = true → (s.itable ip).din.type ≠ tDir) :
    Ok sb ((World.idle (update files f x) cwd base n).lock ip) X .clean (s.setFile f x) := by
  rw [setFile_eq files cwd h.files h.cwd]
  refine h.retable rfl rfl (fun jp => ?_) rfl rfl rfl fun jp hp => ?_
  · show holders _ cwd jp = ((World.idle files cwd base n).take ip).hold jp
    have hsum := holders_setFile files cwd jp f x
    have hnone : (files f).holds jp = 0 := if_neg fun hc => hc.1 hf
    have hone : x.holds jp = if ip = jp then 1 else 0 := by
      rw [File.holds, hip]
      exact if_congr (and_iff_right hx) rfl rfl
    rw [World.hold_take, ← hone]
    show _ = holders files cwd jp + _
    omega
  · rcases plain_update hp with hp | ⟨-, hw, hjp⟩
    · exact .inl hp
    · rw [hip] at hjp
      subst hjp
      exact .inr ⟨((h.entry ip).valid (World.lock_self _ ip)).2, hplain hw⟩

theorem sysOpen_spec {path : List UInt8} {omode : Nat} {nofd : Bool} (h : Quiet sb 1 s) :
    Safe (sysOpen sb p path omode nofd) s fun _ t => Quiet sb 1 t := by
  obtain ⟨base, hok⟩ := h.ok
  refine .seq (openInode_spec hok (fun jp hl => Bool.noConfusion hl) fun jp hp => holders_cwd_pos hp) fun r t ht => ?_
  cases r with
  | none => exact .pure (Quiet.of_ok ht h.counted)
  | some ip =>
    obtain ⟨-, hl, htype⟩ := ht
    have hput : ∀ {u files}, Ok sb (((World.idle files s.cwd base 1).take ip).lock ip) [] .clean u →
        (∀ f, (files f).type ≠ .none → 0 < (files f).ref) →
        Safe (do iunlockput sb ip; return (-1 : Int)) u fun _ v => Quiet sb 1 v := fun hu hc =>
      unlockput_bind hu rfl fun v hv => .pure (Quiet.of_ok hv hc)
    refine .get_bind (.ite (fun _ => hput hl h.counted) fun _ => ?_)
    refine .seq filealloc_spec fun r u hu => ?_
    cases r with
    | none =>
      obtain rfl := hu
      exact hput hl h.counted
    | some f =>
      obtain ⟨href, rfl⟩ := hu
      have hft : t.ftable = s.ftable := hl.files
      -- a file with no references is not in use
      have hnone : (s.ftable f).type = .none := by
        by_contra hc
        have hpos := h.counted f hc
        rw [hft] at href
        omega
      rw [hft]
      have hu := hl.setFile_none (f := f) (x := { s.ftable f with ref := 1 }) hnone hnone
      have hself : (t.setFile f { s.ftable f with ref := 1 }).ftable f = { s.ftable f with ref := 1 } :=
        update_self ..
      refine .ite (fun _ => ?_) fun _ => ?_
      · refine .seq (fileclose_fresh (by rw [hself]) (by rw [hself]; exact hnone)) ?_
        rintro _ _ rfl
        refine hput (hu.setFile_none (f := f) (by rw [update_self]; exact hnone) rfl) ?_
        exact counted_update (counted_update h.counted fun hc => absurd hnone hc) fun hc => absurd rfl hc
      · refine .modify_bind ?_
        rw [hself]
        have hx := hu.install (f := f) (x := { s.ftable f with
          ref := 1
          type := if (t.itable ip).din.type = tDevice then .device else .inode
          ip := ip
          off := 0
          major := (t.itable ip).din.major
          readable := decide (omode &&& 1 = 0)
          writable := decide (omode &&& 1 ≠ 0 ∨ omode &&& 2 ≠ 0) }) (by rw [update_self]; exact hnone)
          (by split <;> exact FileType.noConfusion) rfl fun hw => htype fun hc => by
            rw [hc] at hw
            exact Bool.noConfusion hw
        refine .seq (onlyIf_spec (fun _ => (itrunc_spec hx (World.lock_self _ ip)).mono fun _ v hv => hv.1)
          fun _ => hx) fun _ v hv => ?_
        refine .seq (iunlock_spec hv rfl) fun _ x hx => .pure (Quiet.of_ok hx ?_)
        exact counted_update (counted_update h.counted fun hc => absurd hnone hc) fun _ => Int.one_pos

/-- A change of a file that keeps what it refers to and whether it may be written. -/
theorem Ok.setFile_same {locks : Ip → Bool} (h : Ok sb { World.idle files cwd base n with locks := locks } X .clean s)
    (htype : x.type = (files f).type) (hip : x.ip = (files f).ip) (hw : x.writable = (files f).writable) :
    Ok sb { World.idle (update files f x) cwd base n with locks := locks } X .clean (s.setFile f x) := by
  rw [setFile_eq files cwd h.files h.cwd]
  refine h.retable rfl rfl (fun jp => holders_of_same htype (fun _ => hip) jp) rfl rfl rfl fun jp hp => ?_
  rcases plain_update hp with hp | hx
  · exact .inl hp
  · rw [htype, hip, hw] at hx
    exact .inl ⟨f, hx⟩

/-- The last descriptor of a file is closed: its reference is in the hands of `fileclose()`. -/
theorem Ok.release (h : Ok sb (World.idle files cwd base n) X .clean s) (hf : (files f).type ≠ .none)
    (hx : x.type = .none) :
    Ok sb ((World.idle (update files f x) cwd base n).take (files f).ip) X .clean (s.setFile f x) := by
  rw [setFile_eq files cwd h.files h.cwd]
  refine h.retable rfl rfl (fun jp => ?_) rfl rfl rfl fun jp hp => ?_
  · have hsum := holders_setFile files cwd jp f x
    have hnone : x.holds jp = 0 := if_neg fun hc => hc.1 hx
    have hone : (files f).holds jp = if (files f).ip = jp then 1 else 0 := if_congr (and_iff_right hf) rfl rfl
    rw [World.hold_take, ← hone]
    show holders _ cwd jp + _ = holders files cwd jp
    omega
  · rcases plain_update hp with hp | ⟨hc, -⟩
    · exact .inl hp
    · exact FileType.noConfusion (hx.symm.trans hc)

theorem fileclose_spec (h : Idle sb s) : Safe (fileclose sb f) s fun _ t => Idle sb t := by
  obtain ⟨base, hok⟩ := h.quiet.ok
  refine .get_bind (panic_spec (by decide) fun href => .ite (fun hmany => .of_modify ?_) fun hlast => ?_)
  · have hset := hok.setFile_same (f := f) (x := { s.ftable f with ref := (s.ftable f).ref - 1 }) rfl rfl rfl
    refine ⟨Quiet.of_ok hset (counted_update h.quiet.counted fun _ => ?_), h.lh⟩
    show 0 < (s.ftable f).ref - 1
    omega
  · have hc := counted_update (f := f) (x := { s.ftable f with ref := 0, type := .none }) h.quiet.counted
      fun hc => absurd rfl hc
    refine .modify_bind (.ite (fun htype => ?_) fun htype => .pure ?_)
    · refine .modify_bind ?_
      have hrel := (hok.release htype (x := { s.ftable f with ref := 0, type := .none }) rfl).beginOp
      refine .seq (iput_spec (w := World.idle _ s.cwd base 1) hrel fun hl => Bool.noConfusion hl) fun _ t ht => ?_
      exact .of_modify (Quiet.of_ok ht hc).endOp
    · have hnone := not_not.mp htype
      have hset := hok.setFile_same (f := f) (x := { s.ftable f with ref := 0, type := .none }) hnone.symm rfl rfl
      exact ⟨Quiet.of_ok hset hc, h.lh⟩

theorem filedup_spec (h : Idle sb s) : Safe (filedup f) s fun _ t => Idle sb t := by
  obtain ⟨base, hok⟩ := h.quiet.ok
  refine .get_bind (panic_spec (by decide) fun href => .of_modify ?_)
  have hset := hok.setFile_same (f := f) (x := { s.ftable f with ref := (s.ftable f).ref + 1 }) rfl rfl rfl
  refine ⟨Quiet.of_ok hset (counted_update h.quiet.counted fun hc => ?_), h.lh⟩
  show 0 < (s.ftable f).ref + 1
  omega

theorem iunlock_lh : Safe (iunlock ip) s fun _ t => t.lh = s.lh :=
  Runs.get_bind (.ite (fun _ => .throw (by decide)) fun _ => .of_modify rfl)

theorem filewriteLoop_spec {src : Src} {m : Nat} (fuel : Nat) : ∀ i s, Idle sb s →
    (s.ftable f).type = .inode → (s.ftable f).writable = true →
    Safe (filewriteLoop sb f src m fuel i) s fun _ t => Idle sb t := by
  induction fuel with
  | zero => exact fun i s h _ _ => .pure h
  | succ fuel ih =>
    intro i s h htype hwr
    refine .ite (fun _ => .get_bind (.modify_bind ?_)) fun _ => .pure h
    obtain ⟨base, hok⟩ := h.quiet.beginOp.ok
    have hip : 0 < holders s.ftable s.cwd (s.ftable f).ip := holders_file_pos (by rw [htype]; decide) rfl
    refine .seq (ilock_spec hok hip) fun _ t ⟨_, ht, _⟩ => ?_
    refine .seq (writei_spec ht (World.lock_self _ _) (Nat.lt_of_le_of_lt (Nat.min_le_right _ _) (by decide))
      fun hd => absurd hd ((ht.entry _).plain ⟨f, htype, hwr, rfl⟩).2) fun r u hu => .modify_bind ?_
    have hf : u.ftable = s.ftable := hu.files
    rw [hf]
    have hset := hu.setFile_same (f := f) (x := { s.ftable f with off := (s.ftable f).off + r.getD 0 }) rfl rfl rfl
    refine .seq (iunlock_spec (w := World.idle _ s.cwd base 1) hset rfl) fun _ v hv => .modify_bind ?_
    have hidle := (Quiet.of_ok hv (counted_update h.quiet.counted fun hc => h.quiet.counted f hc)).endOp
    refine .ite (fun _ => ih _ _ hidle ?_ ?_) fun _ => .pure hidle
    · show (v.ftable f).type = _
      rw [hv.files]
      show (update s.ftable f _ f).type = _
      rw [update_self]
      exact htype
    · show (v.ftable f).writable = _
      rw [hv.files]
      show (update s.ftable f _ f).writable = _
      rw [update_self]
      exact hwr

theorem filewrite_spec {src : Src} {m : Int} (h : Idle sb s) :
    Safe (filewrite sb f src m) s fun _ t => Idle sb t := by
  refine .get_bind (.ite (fun _ => .pure h) fun hc => ?_)
  have hwr : (s.ftable f).writable = true := Bool.eq_true_of_not_eq_false fun hw => hc (.inl hw)
  cases htype : (s.ftable f).type with
  | none => exact .throw (by decide)
  | device => exact .pure h
  | inode => exact .seq (filewriteLoop_spec _ 0 s h htype hwr) fun _ t ht => .pure ht

theorem fileread_spec {room : Nat} {m : Int} (h : Idle sb s) (hm : m.toNat < 2 ^ 32) :
    Safe (fileread sb f room m) s fun _ t => Idle sb t := by
  refine .get_bind (.ite (fun _ => .pure h) fun hc => ?_)
  cases htype : (s.ftable f).type with
  | none => exact .throw (by decide)
  | device => exact .pure h
  | inode =>
    obtain ⟨base, hok⟩ := h.quiet.ok
    have hip : 0 < holders s.ftable s.cwd (s.ftable f).ip := holders_file_pos (by rw [htype]; decide) rfl
    refine .seq (ilock_spec hok hip) fun _ t ⟨_, ht, _, _, hlh⟩ => ?_
    refine .seq (readi_spec ht (World.lock_self _ _) hm) fun r u hu => ?_
    rw [hu.1]
    refine .modify_bind ?_
    have hf : t.ftable = s.ftable := ht.files
    rw [hf]
    have hset := ht.setFile_same (f := f) (x := { s.ftable f with off := (s.ftable f).off + (r.getD []).length })
      rfl rfl rfl
    refine .seq ((iunlock_spec (w := World.idle _ s.cwd base 0) hset rfl).both iunlock_lh) fun _ v ⟨hv, hvl⟩ => ?_
    have hidle : Idle sb v :=
      ⟨Quiet.of_ok hv (counted_update h.quiet.counted fun hc => h.quiet.counted f hc), hvl.trans (hlh.trans h.lh)⟩
    cases r with
    | none => exact .pure hidle
    | some bytes => exact .pure hidle

theorem filestat_spec (h : Idle sb s) : Safe (filestat sb f) s fun _ t => Idle sb t := by
  refine .get_bind (.ite (fun _ => .pure h) fun htype => ?_)
  obtain ⟨base, hok⟩ := h.quiet.ok
  refine .seq (ilock_spec hok (holders_file_pos htype rfl)) fun _ t ⟨hfree, ht, _, _, hlh⟩ => .get_bind ?_
  refine .seq ((iunlock_spec ht hfree).both iunlock_lh) fun _ v ⟨hv, hvl⟩ => .pure ?_
  exact ⟨Quiet.of_ok hv h.quiet.counted, hvl.trans (hlh.trans h.lh)⟩

/-! ## Working directories -/

theorem cwdHolds_some (old jp : Ip) : cwdHolds jp (some old) = if old = jp then 1 else 0 :=
  if_congr Option.some_inj rfl rfl

theorem cwdHolds_none (jp : Ip) : cwdHolds jp none = 0 := if_neg (Option.some_ne_none jp).symm

theorem setCwd_eq (files : Fin nfile → File) (cwd : Fin nproc → Option Ip) (hf : s.ftable = files) (hc : s.cwd = cwd)
    (p : Fin nproc) (c : Option Ip) :
    { s with cwd := update s.cwd p c } = { s with ftable := files, cwd := update cwd p c } := by
  rw [← hf, ← hc]

/-- The references once the working directory of `p` is `c`, while it is still the old one. -/
def World.entering (files : Fin nfile → File) (cwd : Fin nproc → Option Ip) (base : Image) (n : Nat) (p : Fin nproc)
    (c : Option Ip) : World :=
  { World.idle files (update cwd p c) base n with cwd := cwd }

theorem Ok.entered {c : Option Ip} (h : Ok sb (World.entering files cwd base n p c) X .clean s) :
    Ok sb (World.idle files (update cwd p c) base n) X .clean
      { s with cwd := update s.cwd p c } := by
  rw [setCwd_eq files cwd h.files h.cwd]
  exact h.retable rfl rfl (fun _ => rfl) rfl rfl rfl fun _ hp => .inl hp

/-- The reference of the old working directory is put. -/
theorem Ok.leaving (h : Ok sb (World.idle files cwd base n) X .clean s) (hp : cwd p = some old) :
    Ok sb ((World.entering files cwd base n p none).take old) X .clean s := by
  refine h.rehold rfl rfl (fun jp => ?_) rfl rfl rfl rfl
  have hsum := holders_setCwd files cwd jp p none
  rw [hp, cwdHolds_some] at hsum
  rw [World.hold_take]
  show holders files _ jp + _ = holders files cwd jp
  have hnone := cwdHolds_none jp
  omega

/-- A new reference, for the working directory of `p`, which has none. -/
theorem Ok.arriving (h : Ok sb ((World.idle files cwd base n).take ip) X .clean s) (hp : cwd p = none) :
    Ok sb (World.entering files cwd base n p (some ip)) X .clean s := by
  refine h.rehold rfl rfl (fun jp => ?_) rfl rfl rfl rfl
  have hsum := holders_setCwd files cwd jp p (some ip)
  rw [hp, cwdHolds_some] at hsum
  rw [World.hold_take]
  show holders files _ jp = holders files cwd jp + _
  have hnone := cwdHolds_none jp
  omega

/-- The reference of the old working directory is put, and the new one is `ip`. -/
theorem Ok.moving (h : Ok sb ((World.idle files cwd base n).take ip) X .clean s) (hp : cwd p = some old) :
    Ok sb ((World.entering files cwd base n p (some ip)).take old) X .clean s := by
  refine h.rehold rfl rfl (fun jp => ?_) rfl rfl rfl rfl
  have hsum := holders_setCwd files cwd jp p (some ip)
  rw [hp, cwdHolds_some, cwdHolds_some] at hsum
  rw [World.hold_take, World.hold_take]
  exact hsum

theorem sysChdir_spec {path : List UInt8} (h : Quiet sb 1 s) :
    Safe (sysChdir sb p path) s fun _ t => Quiet sb 1 t := by
  obtain ⟨base, hok⟩ := h.ok
  refine .seq (namex_spec hok (fun jp hl => Bool.noConfusion hl) fun jp hp => holders_cwd_pos hp) fun r t ht => ?_
  cases r with
  | none => exact .pure (Quiet.of_ok ht h.counted)
  | some q =>
    obtain ⟨ip, name⟩ := q
    have ht' : Ok sb ((World.idle s.ftable s.cwd base 1).take ip) [] .clean t := ht
    refine .seq (ilock_spec ht' (by rw [World.hold_take_self]; exact Nat.succ_pos _)) fun _ u ⟨hfree, hu, _⟩ =>
      Runs.get_bind ?_
    refine .ite (fun _ => unlockput_bind hu rfl fun v hv => .pure (Quiet.of_ok hv h.counted)) fun _ => ?_
    refine .seq (iunlock_spec hu hfree) fun _ v hv => ?_
    have hcwd : u.cwd = s.cwd := hu.cwd
    rw [hcwd]
    cases hp : s.cwd p with
    | none => exact .throw (by decide)
    | some old =>
      refine .seq (iput_spec (hv.moving hp) fun hl => Bool.noConfusion hl) fun _ x hx => ?_
      exact .modify_bind (.pure (Quiet.of_ok hx.entered h.counted))

theorem exit_spec (h : Idle sb s) (hp : s.cwd p = some old) :
    Safe (do
      beginOp
      iput sb old
      endOp
      setCwd p none
      return (0 : Int)) s fun _ t => Idle sb t := by
  obtain ⟨base, hok⟩ := h.quiet.beginOp.ok
  refine .modify_bind (.seq (iput_spec (hok.leaving hp) fun hl => Bool.noConfusion hl) fun _ t ht => ?_)
  have hend : Ok sb (World.entering s.ftable s.cwd t.disk 0 p none) [] .clean
      { t with outstanding := t.outstanding - 1, lh := [] } := ht.endOp
  exact .modify_bind (.modify_bind (.pure ⟨Quiet.of_ok hend.entered h.quiet.counted, rfl⟩))

/-! ## Orphans -/

theorem reclaimOne_spec {inum : Nat} (h : Idle sb s) (hlt : inum < sb.ninodes) :
    Safe (reclaimOne sb inum) s fun _ t => Idle sb t := by
  obtain ⟨base, hok⟩ := h.quiet.ok
  refine .get_bind (onlyIf_spec (fun _ => ?_) fun _ => h)
  refine .seq (Q := fun _ t => Quiet sb 1 t) ?_ fun _ t ht => .of_modify ht.endOp
  refine .seq (iget_spec hok hlt) fun ip t ht => .modify_bind ?_
  have hb : Ok sb ((World.idle s.ftable s.cwd base 1).take ip) [] .clean { t with outstanding := t.outstanding + 1 } :=
    ht.1.beginOp
  refine .seq (ilock_spec hb (by rw [World.hold_take_self]; exact Nat.succ_pos _)) fun _ u ⟨hfree, hu, _⟩ => ?_
  refine .seq (iunlock_spec hu hfree) fun _ v hv => ?_
  exact (iput_spec hv fun hl => Bool.noConfusion hl).mono fun _ x hx => Quiet.of_ok hx h.quiet.counted

theorem ireclaim_spec (h : Idle sb s) : Safe (ireclaim sb) s fun _ t => Idle sb t :=
  Runs.forM_range (I := fun _ t => Idle sb t) h fun i hi _ ht => reclaimOne_spec ht (by omega)

/-! ## Calls -/

theorem namex_slash (p : Fin nproc) :
    namex sb p [slash] false = iget rootino >>= fun ip => pure (some (ip, [])) := by
  rw [namex, if_pos (by decide)]
  rfl

theorem userinit_spec (h : Idle sb s) (hp : s.cwd p = none) :
    Safe (do
      match ← namex sb p [slash] false with
      | some (ip, _) =>
        setCwd p (some ip)
        return (0 : Int)
      | none => return -1) s fun _ t => Idle sb t := by
  obtain ⟨base, hok⟩ := h.quiet.ok
  rw [namex_slash, bind_assoc]
  refine .seq (iget_spec hok sb.root_lt) fun ip t ⟨ht, _, _, hlh⟩ => ?_
  have hidle : Idle sb { t with cwd := update t.cwd p (some ip) } :=
    ⟨Quiet.of_ok (ht.arriving hp).entered h.quiet.counted, hlh.trans h.lh⟩
  exact .pure_bind (.modify_bind (.pure hidle))

theorem call_spec (h : Idle sb s) (c : FsCall) : Safe (call sb c) s fun _ t => Idle sb t := by
  cases c with
  | openFile p path omode nofd =>
    cases path with
    | none => exact .pure h
    | some path => exact transaction_spec h fun t ht => sysOpen_spec ht
  | mkdir p path =>
    cases path with
    | none => exact .pure h
    | some path => exact transaction_spec h fun t ht => ht.keeps fun w hok hw hcwd => sysMake_spec hok hw (hcwd p)
  | mknod p path major minor =>
    cases path with
    | none => exact .pure h
    | some path => exact transaction_spec h fun t ht => ht.keeps fun w hok hw hcwd => sysMake_spec hok hw (hcwd p)
  | link p old new =>
    cases old with
    | none => exact .pure h
    | some old =>
      cases new with
      | none => exact .pure h
      | some new => exact transaction_spec h fun t ht => ht.keeps fun w hok hw hcwd => sysLink_spec hok hw (hcwd p)
  | unlink p path =>
    cases path with
    | none => exact .pure h
    | some path => exact transaction_spec h fun t ht => ht.keeps fun w hok hw hcwd => sysUnlink_spec hok hw (hcwd p)
  | chdir p path =>
    cases path with
    | none => exact .pure h
    | some path => exact transaction_spec h fun t ht => sysChdir_spec ht
  | write f src m => exact .get_bind (.ite (fun _ => .pure h) fun _ => filewrite_spec h)
  | read f room m =>
    refine .get_bind (.ite (fun _ => .pure h) fun _ => fileread_spec h ?_)
    have hlt := m.toInt_lt
    omega
  | fstat f =>
    refine .get_bind (.ite (fun _ => .pure h) fun _ => .seq (filestat_spec h) fun r t ht => ?_)
    cases r with
    | none => exact .pure ht
    | some st => exact .pure ht
  | dup f =>
    exact .get_bind (.ite (fun _ => .pure h) fun _ => .seq (filedup_spec h) fun _ t ht => .pure ht)
  | close f =>
    exact .get_bind (.ite (fun _ => .pure h) fun _ => .seq (fileclose_spec h) fun _ t ht => .pure ht)
  | userinit p =>
    refine .get_bind (.ite (fun _ => .pure h) fun hp => userinit_spec h ?_)
    exact Option.not_isSome_iff_eq_none.mp hp
  | fork p q =>
    refine .get_bind ?_
    obtain ⟨base, hok⟩ := h.quiet.ok
    cases hp : s.cwd p with
    | none => exact .pure h
    | some old =>
      cases hq : s.cwd q with
      | some other => exact .pure h
      | none =>
        have hdup : Safe (idup old) s fun _ t => t.lh = s.lh := Runs.modify_bind (.pure rfl)
        refine .seq ((idup_spec hok (holders_cwd_pos hp)).both hdup) ?_
        rintro _ t ⟨⟨rfl, ht⟩, hlh⟩
        exact .modify_bind (.pure ⟨Quiet.of_ok (ht.arriving hq).entered h.quiet.counted, hlh.trans h.lh⟩)
  | exit p =>
    refine .get_bind ?_
    cases hp : s.cwd p with
    | none => exact .pure h
    | some old => exact exit_spec h hp
  | ireclaim => exact .seq (ireclaim_spec h) fun _ t ht => .pure ht

theorem runCalls_spec (h : Idle sb s) (calls : List FsCall) : Safe (runCalls sb calls) s fun _ t => Idle sb t := by
  rw [runCalls]
  refine Runs.forM_list h fun c _ t ht => ?_
  show Safe (call sb c >>= fun _ => pure ()) t _
  exact .seq (call_spec ht c) fun _ u hu => .pure hu

end

end Xv6.Fs
