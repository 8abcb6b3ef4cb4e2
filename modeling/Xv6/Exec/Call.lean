import Xv6.Exec.Fetch
import Xv6.Exec.Replace
import Xv6.Fs.Between

/-!
# `kexec()` and `sys_exec()`

* `FsKept sb s t` : between calls again, with the same open files and working directories;
* `kexec_spec` : `kexec()` replaces the image of the caller, or changes nothing;
* `sysExec_spec` : so does `sys_exec()`, but reading the arguments may have faulted pages in.
-/

namespace Xv6.Exec
open Vm Fs Kern Bytes Hoare Alloc

/-! ## The file system -/

structure FsKept (sb : Superblock) (s t : FsState) : Prop where
  idle : Idle sb t
  ftable : t.ftable = s.ftable
  cwd : t.cwd = s.cwd

/-- The end of the transaction. -/
theorem fsKept_of_ok {sb : Superblock} {s t : FsState} {base : Image} (hidle : Idle sb s)
    (h : Ok sb (World.idle s.ftable s.cwd base 1) [] .clean t) :
    FsKept sb s { t with outstanding := t.outstanding - 1, lh := [] } :=
  ⟨(Quiet.of_ok h hidle.quiet.counted).endOp, h.files, h.cwd⟩

/-- The panics of the file system. -/
def FsPanics (e : Panic) : Prop := ∃ e', e = .fs e'

section
variable {P : Type} [DecidableEq P] {sb : Superblock} {s : State} {p : Slot} {old tf : Vm.Frame}
  {ext : P → Option Vm.Frame} {R : Panic → Prop} {argv : List Vm.Frame}

/-- What `namei()` has found: nothing, or a file that can be locked and read; `C` says which. -/
def Opened (R : FsPanic → Prop) (sb : Superblock) (C : Option Contents → Prop) (Q : FsState → Prop)
    (r : Option (Ip × List UInt8)) (t : FsState) : Prop :=
  match r with
  | none => C none ∧ Q { t with outstanding := t.outstanding - 1, lh := [] }
  | some (ip, _) => Runs R (ilock sb ip) t fun _ u => ∃ c, C (some c) ∧ Reads sb ip c u ∧ Closes R sb ip u Q

/-- `kexec()` on top of `namei()`. -/
theorem kexec_opened {C : Option Contents → Prop} {Q : FsState → Prop} {path : List UInt8}
    (hcur : Current s.kern p old tf ext) (hargs : Args s.kern.phys argv)
    (hopen : Runs (fun e => R (.fs e)) (namex sb p path false) { s.fs with outstanding := s.fs.outstanding + 1 }
      (Opened (fun e => R (.fs e)) sb C Q)) :
    Runs R (kexec sb p path argv) s fun r t => Q t.fs ∧ ((C none ∧ r = -1 ∧ t.kern = s.kern) ∨
      ∃ c, C (some c) ∧ Outcome s.kern p tf ext path (argv.map s.kern.phys.mem) c r t.kern) := by
  unfold kexec
  refine file_bind (P := fun _ t => t = { s.fs with outstanding := s.fs.outstanding + 1 }) (.of_modify rfl)
    fun _ t ht => ?_
  subst ht
  refine file_bind hopen fun r t ht => ?_
  rcases r with _ | ⟨ip, name⟩
  · refine file_bind (P := fun _ u => u = { t with outstanding := t.outstanding - 1, lh := [] }) (.of_modify rfl)
      fun _ u hu => ?_
    subst hu
    exact .pure ⟨ht.2, .inl ⟨ht.1, rfl, rfl⟩⟩
  · refine file_bind ht fun _ u hu => ?_
    obtain ⟨c, hc, hreads, hcloses⟩ := hu
    refine (execInode_spec (s := { s with fs := u }) hcur hargs hreads hcloses).mono fun r t ht => ?_
    exact ⟨ht.1, .inr ⟨c, hc, ht.2⟩⟩

/-- **`kexec()`**, whatever the path leads to. -/
theorem kexec_spec {path : List UInt8} (hidle : Idle sb s.fs) (hcur : Current s.kern p old tf ext)
    (hargs : Args s.kern.phys argv) :
    Runs FsPanics (kexec sb p path argv) s fun r t => FsKept sb s.fs t.fs ∧ ((r = -1 ∧ t.kern = s.kern) ∨
      ∃ c, Outcome s.kern p tf ext path (argv.map s.kern.phys.mem) c r t.kern) := by
  have hpanic : ∀ e : FsPanic, e ≠ .freeingFree → FsPanics (.fs e) := fun e _ => ⟨e, rfl⟩
  obtain ⟨base, hok⟩ := hidle.quiet.ok
  have hopen : Runs (fun e => FsPanics (.fs e)) (namex sb p path false) { s.fs with outstanding :=
      s.fs.outstanding + 1 }
      (Opened (fun e => FsPanics (.fs e)) sb (fun _ => True) (FsKept sb s.fs)) := by
    refine ((namex_spec hok.beginOp (fun jp hl => Bool.noConfusion hl) fun jp hp =>
      holders_cwd_pos hp).weaken hpanic).mono
      fun r t ht => ?_
    rcases r with _ | ⟨ip, name⟩
    · exact ⟨trivial, fsKept_of_ok hidle ht⟩
    · have hpos : 0 < ((World.idle s.fs.ftable s.fs.cwd base 1).take ip).hold ip := by
        rw [World.hold_take_self]
        exact Nat.succ_pos _
      refine ((ilock_spec ht hpos).weaken hpanic).mono fun _ u hu => ?_
      refine ⟨_, trivial, reads_of_ok hu.2.1 (World.lock_self _ ip), ?_⟩
      exact ((iunlockput_spec hu.2.1 rfl).weaken hpanic).mono fun _ v hv => .of_modify (fsKept_of_ok hidle hv)
  refine (kexec_opened hcur hargs hopen).mono fun r t ht => ⟨ht.1, ht.2.imp (fun h => h.2) fun ⟨c, _, hc⟩ => ⟨c, hc⟩⟩

/-- All entries of the inode table but one are taken. -/
def InodesFull (s : FsState) (e : Panic) : Prop :=
  e = .fs .noInodes ∧ ∃ ip, ∀ jp, jp ≠ ip → 0 < holders s.ftable s.cwd jp

/-- The file that a path leads to. -/
def fileAt (sb : Superblock) (s : FsState) (cwd : Ip) (path : List UInt8) : Option Contents :=
  ((sb.view s.disk).namei (s.start cwd path) (components path)).map (contents (sb.view s.disk))

/-- **`kexec()` of the file that the path leads to.** -/
theorem kexec_file {cwd : Ip} {path : List UInt8} (hidle : Idle sb s.fs) (htree : Fs.Tree sb (sb.view s.fs.disk))
    (hstart : ∀ base, Starts sb (World.idle s.fs.ftable s.fs.cwd base 1) s.fs p cwd path) (h0 : 0 ∉ path)
    (hcur : Current s.kern p old tf ext) (hargs : Args s.kern.phys argv) :
    Runs (InodesFull s.fs) (kexec sb p path argv) s fun r t => FsKept sb s.fs t.fs ∧
      ((fileAt sb s.fs cwd path = none ∧ r = -1 ∧ t.kern = s.kern) ∨
        ∃ c, fileAt sb s.fs cwd path = some c ∧
          Outcome s.kern p tf ext path (argv.map s.kern.phys.mem) c r t.kern) := by
  obtain ⟨base, hok⟩ := hidle.quiet.ok
  have hok1 : Ok sb (World.idle s.fs.ftable s.fs.cwd base 1) [] .clean { s.fs with outstanding :=
      s.fs.outstanding + 1 } := hok.beginOp
  have hfull : ∀ e, TableFull (World.idle s.fs.ftable s.fs.cwd base 1) e → InodesFull s.fs (.fs e) := by
    rintro e ⟨rfl, hfull⟩
    exact ⟨rfl, hfull⟩
  have hopen : Runs (fun e => InodesFull s.fs (.fs e)) (namex sb p path false) { s.fs with outstanding :=
      s.fs.outstanding + 1 }
      (Opened (fun e => InodesFull s.fs (.fs e)) sb (fun o => fileAt sb s.fs cwd path = o) (FsKept sb s.fs)) := by
    refine ((namex_walk false hok1 (fun _ => rfl) htree (hstart base) h0).weaken hfull).mono fun r t ht => ?_
    rw [View.outcome_false] at ht
    cases hname : (sb.view s.fs.disk).namei (s.fs.start cwd path) (components path) with
    | none =>
      obtain ⟨rfl, hok2⟩ := ht.none (by rw [← Option.map_none, ← hname]; rfl)
      exact ⟨by rw [fileAt, hname, Option.map_none], fsKept_of_ok hidle hok2⟩
    | some i =>
      obtain ⟨ip, rfl, hinum, -⟩ :=
        ht.some i [] (by rw [← Option.map_some (f := fun j => (j, ([] : List UInt8))), ← hname]; rfl)
      obtain ⟨j, hat⟩ := ht.stays ip [] rfl
      obtain rfl : j = i := hat.inum.symm.trans hinum
      refine (hat.ilock rfl).mono fun _ u hu => ⟨contents (sb.view s.fs.disk) j, ?_, ?_, ?_⟩
      · rw [fileAt, hname, Option.map_some]
      · have hreads := reads_of_ok hu.ok (World.lock_self _ ip)
        rwa [hu.disk, hu.inum] at hreads
      · exact (hu.iunlockput rfl).mono fun _ v hv => .of_modify (fsKept_of_ok hidle hv.1)
  exact (kexec_opened hcur hargs hopen).mono fun r t ht => ht

/-! ## The system call -/

variable {k : Kern.State} {phys : Phys} {l : List Vm.Frame}

omit [DecidableEq P] in
/-- The caller after pages have been faulted in, and others borrowed. -/
theorem Current.borrowing (h : Current k p old tf ext) (htouch : Vm.Touched k.phys phys old (k.proc p).sz ext)
    (hb : Borrowing phys old (k.proc p).sz ext l) : Current { k with phys := phys } p old tf (borrowed ext l) := by
  refine ⟨h.pagetable, h.trapframe, ⟨hb.space, h.image.size, fun v hge hv => ?_⟩, htouch.keeps.low h.low,
    ?_, ?_, hb.kend⟩
  · have hlt : v < 2 ^ 26 := hv.trans (by decide)
    by_contra hc
    obtain ⟨w, hw⟩ := Option.ne_none_iff_exists'.mp hc
    have hfresh := (htouch.fresh _ (vaOf_lt hlt) w (h.image.top v hge hv) hw).1
    rw [BitVec.lt_def, toNat_pgrounddown, toNat_vaOf (Nat.le_of_lt hlt), Nat.mul_div_cancel _ (by decide)] at hfresh
    change pages (k.proc p).sz ≤ v at hge
    rw [pages] at hge
    omega
  · obtain ⟨q, hq⟩ := h.registers
    exact ⟨Sum.inl q, hq⟩
  · obtain ⟨q, hq⟩ := h.trampoline
    exact ⟨Sum.inl q, hq⟩

omit [DecidableEq P] in
theorem Current.size_le (h : Current k p old tf ext) : (k.proc p).sz ≤ maxva :=
  BitVec.le_trans h.image.size (by decide)

omit [DecidableEq P] in
/-- The pages of the call are in the same hands when the same pages are in use. -/
theorem borrowing_of_reverted {psz : BitVec 64} {u : Phys} (h : Borrowing phys old psz ext l) (hrev : Reverted phys u) :
    Borrowing u old psz ext l ∧ Vm.Touched phys u old psz ext := by
  have htables : ∀ path f, tables phys.mem old path = some f → u.mem f = phys.mem f := fun _ f hf =>
    hrev.mem f (h.space.tree.not_free hf)
  have hused : ∀ f, u.Used f ↔ phys.Used f := fun f => not_congr (hrev.free f)
  refine ⟨⟨h.space.transport hrev.heap hrev.kend htables (h.space.tree.exact.congr_used hused),
    h.kernel.transport htables, hrev.kend ▸ h.kend, fun f hf => (inPool_congr hrev.kend).mpr (h.pool f hf)⟩, ?_⟩
  exact h.kernel.touched htables hrev.kend (fun v f hf => hrev.mem f (h.space.not_free hf)) fun q f hq =>
    hrev.mem f (h.space.not_free_ext (q := Sum.inl q) hq)

omit [DecidableEq P] in
theorem giveBack_userMem {R : VmPanic → Prop} {s0 : Phys} {root : Vm.Frame} {top : Nat → Option (BitVec 64)}
    {sz : BitVec 64} {m : Cells} (h : UserMem s0 phys root (borrowed ext l) top sz m) (hpool : ∀ f ∈ l, phys.InPool f) :
    Runs R (forM l kfree) phys fun _ u => UserMem s0 u root ext top sz m := by
  obtain ⟨htables, hleaves, hext⟩ := h.space.ne_borrowed
  refine (giveBack_spec l phys h.space hpool).mono fun _ u hu => ?_
  obtain ⟨hspace, hkend, hmem⟩ := hu
  refine h.transport hspace hkend (fun p f hf => hmem f (htables p f hf)) (fun v f hf => hmem f (hleaves v f hf)) rfl
    fun q f hq => ?_
  rw [hmem f (hext q f hq), h.kept (Sum.inl q) f hq]

/-- How `sys_exec()` ends. -/
def SysOutcome (k : Kern.State) (p : Slot) (old tf : Vm.Frame) (ext : P → Option Vm.Frame) (r : Int) (k' : Kern.State) :
    Prop :=
  (r = -1 ∧ ∃ phys, k' = { k with phys := phys } ∧ Accessed userPages k.phys phys old (k.proc p).sz ext fun _ => none) ∨
    ∃ path strs prog, r = strs.length ∧ Became k p tf ext path strs prog k'

omit [DecidableEq P] in
/-- The arguments of a call that has failed go. -/
theorem freeArgs_failed (tf : Vm.Frame) (hb : Borrowing phys old (s.kern.proc p).sz ext l)
    (htouch : Vm.Touched s.kern.phys phys old (s.kern.proc p).sz ext) :
    Runs R (do vm (forM l kfree); return (-1 : Int)) (s.withPhys phys) fun r t => t.fs = s.fs ∧
      SysOutcome s.kern p old tf ext r t.kern := by
  refine vm_bind hb.giveBack fun _ u hu => .pure ⟨rfl, .inl ⟨rfl, u, rfl, ?_⟩⟩
  exact (htouch.trans hu.2).accessed hu.1

omit [DecidableEq P] in
/-- The arguments of a call that has succeeded go. -/
theorem freeArgs_became {path : List UInt8} {strs : List (Nat → UInt8)} {prog : Program} {t : State}
    (hb : Borrowing phys old (s.kern.proc p).sz ext l) (htouch : Vm.Touched s.kern.phys phys old (s.kern.proc p).sz ext)
    (h : Became { s.kern with phys := phys } p tf (borrowed ext l) path strs prog t.kern) (r : Int) :
    Runs R (do vm (forM l kfree); return r) t fun r' u => r' = r ∧ u.fs = t.fs ∧
      Became s.kern p tf ext path strs prog u.kern := by
  obtain ⟨root, phys', hkern, hsize, hmem⟩ := h
  have hkend : phys'.kend = phys.kend := hmem.kend
  have hphys : t.kern.phys = phys' := by rw [hkern]; rfl
  refine vm_bind (P := fun _ u => _) ?_ fun _ u hu => .pure ⟨rfl, rfl, root, u, ?_, hsize, hu⟩
  · rw [hphys]
    refine (giveBack_userMem hmem fun f hf => (inPool_congr hkend).mpr (hb.pool f hf)).mono fun _ u hu => ?_
    exact hu.rebase (htouch.keeps.kend.symm) fun q f hq =>
    setRegisters_congr (htouch.keeps.mem f (.inl ⟨q, hq⟩)).symm _ _
  · show { t.kern with phys := u } = _
    rw [hkern]
    rfl

/-- **`sys_exec()`**, with any arguments. -/
theorem sysExec_spec {args : Fin 6 → BitVec 64} {junk : Nat → UInt8} (hidle : Idle sb s.fs)
    (hcur : Current s.kern p old tf ext) (htable : UserTable userPages s.kern.phys old (s.kern.proc p).sz ext) :
    Runs FsPanics (sysExec sb p args junk) s fun r t => FsKept sb s.fs t.fs ∧
      SysOutcome s.kern p old tf ext r t.kern := by
  have hkept : FsKept sb s.fs s.fs := ⟨hidle, rfl, rfl⟩
  unfold sysExec
  refine .get_bind (deref_kern hcur.pagetable (.get_bind ?_))
  dsimp only
  refine vm_bind (fetchstr_accessed hcur.size_le htable (by decide)) fun path phys1 h1 => ?_
  refine .ite (fun _ => .pure ⟨hkept, .inl ⟨rfl, phys1, rfl, h1.1⟩⟩) fun _ => ?_
  have hb1 := (Borrowing.of_table h1.1.table)
  refine vm_bind (fetchArgs_spec hcur.size_le maxarg [] phys1 hb1 (fun f hf => absurd hf List.not_mem_nil)
    (Nat.zero_add _))
    fun r phys2 h2 => ?_
  obtain ⟨ok, l⟩ := r
  obtain ⟨hb2, htouch2, hfetched⟩ := h2
  have htouch := h1.1.touched.trans htouch2
  dsimp only
  -- `kexec()` has failed
  have hfail : ∀ {t : State} {phys3}, FsKept sb s.fs t.fs → t.kern = { s.kern with phys := phys3 } →
      Borrowing phys3 old (s.kern.proc p).sz ext l → Vm.Touched s.kern.phys phys3 old (s.kern.proc p).sz ext →
      Runs FsPanics (do vm (forM l kfree); return (-1 : Int)) t fun r t => FsKept sb s.fs t.fs ∧
        SysOutcome s.kern p old tf ext r t.kern := by
    rintro ⟨kern, fs⟩ phys3 hfs rfl hb3 htouch3
    refine (freeArgs_failed (s := { s with fs := fs }) tf hb3 htouch3).mono fun r t ht => ?_
    exact ⟨ht.1 ▸ hfs, ht.2⟩
  by_cases hok : ok = true
  · rw [if_pos hok]
    have hcur' := hcur.borrowing htouch hb2
    have hargs : Args phys2 l := ⟨(hfetched hok).1, fun f hf => ?_, (hfetched hok).2⟩
    · refine (kexec_spec (s := s.withPhys phys2) hidle hcur' hargs).seq fun r t ht => ?_
      obtain ⟨hfs, ⟨rfl, hkern⟩ | ⟨c, ⟨rfl, ⟨phys3, hkern, hrev⟩, -⟩ | ⟨rfl, -, prog, -, hbecame⟩⟩⟩ := ht
      · exact hfail hfs hkern hb2 htouch
      · obtain ⟨hb3, htouch3⟩ := borrowing_of_reverted hb2 hrev
        exact hfail hfs hkern hb3 (htouch.trans htouch3)
      · refine (freeArgs_became hb2 htouch hbecame _).mono fun r u hu => ?_
        obtain ⟨rfl, hfs', hbecame'⟩ := hu
        exact ⟨hfs' ▸ hfs, .inr ⟨_, _, prog, rfl, hbecame'⟩⟩
    · obtain ⟨i, hi⟩ := List.mem_iff_getElem?.mp hf
      exact hb2.space.not_free_ext (q := Sum.inr i) hi
  · rw [if_neg hok]
    refine .pure_bind ((freeArgs_failed tf hb2 htouch).mono fun r t ht => ?_)
    exact ⟨ht.1 ▸ hkept, ht.2⟩

end

end Xv6.Exec
