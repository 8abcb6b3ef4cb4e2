import Xv6.Exec.Call
import Xv6.Fs.Allocation

/-!
# An `exec()` that fails

* `FsSame s t` : the same references, no locks, the same transactions;
* `Unchanged s t p old tf` : the caller, its registers and its memory are as they were;
* `SamePages s t old` : and so are its page table and the free pages; `FaultedIn s t old psz` : but for pages that have
  been faulted in;
* `failed_exec_changes_nothing` : what `kexec()` and `sys_exec()` leave when they return -1.
-/

namespace Xv6.Exec
open Vm Fs Kern Bytes Hoare Alloc Function

/-! ## What is left -/

structure FsSame (s t : FsState) : Prop where
  ref : ∀ ip, (t.itable ip).ref = (s.itable ip).ref
  locked : ∀ ip, (t.itable ip).locked = false
  outstanding : t.outstanding = s.outstanding
  ftable : t.ftable = s.ftable
  cwd : t.cwd = s.cwd

theorem FsKept.same {sb : Superblock} {s t : FsState} (hidle : Idle sb s) (h : FsKept sb s t) : FsSame s t := by
  obtain ⟨base, hs⟩ := hidle.quiet.ok
  obtain ⟨base', ht⟩ := h.idle.quiet.ok
  refine ⟨fun ip => ?_, fun ip => (ht.entry ip).locked, ht.outstanding.trans hs.outstanding.symm, h.ftable, h.cwd⟩
  rw [(ht.entry ip).ref, (hs.entry ip).ref, h.ftable, h.cwd]
  rfl

structure Unchanged (s t : Kern.State) (p : Slot) (old tf : Vm.Frame) : Prop where
  kern : t = { s with phys := t.phys }
  registers : t.phys.mem tf = s.phys.mem tf
  byte : ∀ va, userByte t.phys old (s.proc p).sz va = userByte s.phys old (s.proc p).sz va

structure SamePages (s t : Phys) (old : Vm.Frame) : Prop where
  leaf : ∀ va, leaf t.mem old va = leaf s.mem old va
  free : ∀ f, f ∈ t.freelist ↔ f ∈ s.freelist
  mem : ∀ f, f ∉ s.freelist → t.mem f = s.mem f

/-- Pages below the size have been mapped that were not mapped before; they and their page tables are the only pages
taken. -/
structure FaultedIn (s t : Phys) (old : Vm.Frame) (psz : BitVec 64) : Prop where
  kept : ∀ va < maxva, ∀ w, leaf s.mem old va = some w → leaf t.mem old va = some w
  fresh : ∀ va < maxva, ∀ w, leaf s.mem old va = none → leaf t.mem old va = some w → pgrounddown va < psz
  free : ∀ f, f ∈ t.freelist → f ∈ s.freelist
  taken : ∀ f, f ∈ s.freelist → f ∉ t.freelist → (∃ q, tables s.mem old q = none ∧ tables t.mem old q = some f) ∨
    ∃ v < userPages, leaf s.mem old (vaOf v) = none ∧ ∃ w, leaf t.mem old (vaOf v) = some w ∧ pteFrame w = f

section
variable {P : Type} [DecidableEq P] {sb : Superblock} {s : State} {k : Kern.State} {phys t : Phys} {p : Slot}
  {old tf tramp root : Vm.Frame} {ext : P → Option Vm.Frame} {psz sz : BitVec 64} {m : Cells}

omit [DecidableEq P] in
theorem Current.reverted (hcur : Current k p old tf ext) (htable : UserTable userPages k.phys old (k.proc p).sz ext)
    (h : Reverted k.phys phys) : Unchanged k { k with phys := phys } p old tf ∧ SamePages k.phys phys old := by
  have hext : ∀ q f, ext q = some f → phys.mem f = k.phys.mem f := fun q f hq => h.mem f (htable.space.not_free_ext hq)
  have htables : ∀ q f, tables k.phys.mem old q = some f → phys.mem f = k.phys.mem f := fun q f hf =>
    h.mem f (htable.space.tree.not_free hf)
  have htouch := htable.kernel.touched htables h.kend (fun v f hf => h.mem f (htable.space.not_free hf)) hext
  obtain ⟨q, hq⟩ := hcur.registers
  exact ⟨⟨rfl, hext q tf hq, htouch.byte⟩, leaf_congr htables, h.free, h.mem⟩

omit [DecidableEq P] in
/-- Which pages have been taken. -/
theorem faultedIn_of_accessed (hs : Space userPages phys old ext [])
    (h : Accessed userPages phys t old psz ext fun _ => none) : FaultedIn phys t old psz := by
  have hleaf : ∀ v < userPages, ∀ w, leaf phys.mem old (vaOf v) = some w → leaf t.mem old (vaOf v) =
      some w := fun v hv =>
    h.kept _ (vaOf_lt (hv.trans (by decide)))
  refine ⟨h.kept, fun va hva w hnone hw => (h.fresh va hva w hnone hw).1, fun f hf => ?_, fun f hf hused => ?_⟩
  · -- a page in use has kept its place
    by_contra hc
    rcases (hs.tree.exact.used_iff f).mp hc with ⟨q | v | q, hq⟩ | hc'
    · exact h.table.space.tree.not_free (h.keeps.table q f hq) hf
    · obtain ⟨hv, w, hw, rfl⟩ := leafFrames_eq_some.mp hq
      exact h.table.space.not_free (leafFrames_eq_some.mpr ⟨hv, w, hleaf v hv w hw, rfl⟩) hf
    · exact h.table.space.not_free_ext hq hf
    · cases hc'
  · rcases (h.table.space.tree.exact.used_iff f).mp hused with ⟨q | v | q, hq⟩ | hc'
    · refine .inl ⟨q, ?_, hq⟩
      by_contra hc
      obtain ⟨g, hg⟩ := Option.ne_none_iff_exists'.mp hc
      have heq : g = f := Option.some.inj ((h.keeps.table q g hg).symm.trans hq)
      exact hs.tree.not_free hg (heq ▸ hf)
    · obtain ⟨hv, w, hw, rfl⟩ := leafFrames_eq_some.mp hq
      refine .inr ⟨v, hv, ?_, w, hw, rfl⟩
      by_contra hc
      obtain ⟨w', hw'⟩ := Option.ne_none_iff_exists'.mp hc
      have heq : w' = w := Option.some.inj ((hleaf v hv w' hw').symm.trans hw)
      exact hs.not_free (leafFrames_eq_some.mpr ⟨hv, w', hw', rfl⟩) (heq ▸ hf)
    · exact absurd hf (hs.not_free_ext hq)
    · cases hc'

/-- **A failed `exec()` changes nothing**, except that `sys_exec()` may have faulted in pages of the caller's own
memory. -/
theorem failed_exec_changes_nothing (hidle : Idle sb s.fs) (hcur : Current s.kern p old tf ext)
    (htable : UserTable userPages s.kern.phys old (s.kern.proc p).sz ext) :
    (∀ path argv, Args s.kern.phys argv → Runs FsPanics (kexec sb p path argv) s fun r t => r = -1 →
      FsSame s.fs t.fs ∧ Unchanged s.kern t.kern p old tf ∧ SamePages s.kern.phys t.kern.phys old) ∧
    ∀ args junk, Runs FsPanics (sysExec sb p args junk) s fun r t => r = -1 →
      FsSame s.fs t.fs ∧ Unchanged s.kern t.kern p old tf ∧
        FaultedIn s.kern.phys t.kern.phys old (s.kern.proc p).sz := by
  obtain ⟨q, hq⟩ := hcur.registers
  constructor
  · intro path argv hargs
    refine (kexec_spec hidle hcur hargs).mono fun r t ht hr => ?_
    obtain ⟨hfs, ⟨-, hkern⟩ | ⟨c, ⟨-, ⟨phys, hkern, hrev⟩, -⟩ | ⟨hlen, -⟩⟩⟩ := ht
    · rw [hkern]
      exact ⟨hfs.same hidle, hcur.reverted htable (.refl hcur.heap)⟩
    · rw [hkern]
      exact ⟨hfs.same hidle, hcur.reverted htable hrev⟩
    · omega
  · intro args junk
    refine (sysExec_spec hidle hcur htable).mono fun r t ht hr => ?_
    obtain ⟨hfs, ⟨-, phys, hkern, hacc⟩ | ⟨path, strs, prog, hlen, -⟩⟩ := ht
    · rw [hkern]
      exact ⟨hfs.same hidle, ⟨rfl, hacc.keeps.mem tf (.inl ⟨q, hq⟩), hacc.touched.byte⟩,
      faultedIn_of_accessed htable.space hacc⟩
    · omega

/-! ## A caller -/

omit [DecidableEq P] in
/-- A process whose page table has been built: with some of its pages mapped, and others not yet. -/
theorem current_of_userMem (h : UserMem phys k.phys root (inUse phys) (topPages k.trampoline tf) sz m)
    (htramp : k.trampoline ∉ phys.freelist) (htf : tf ∉ phys.freelist) (hkend : 0 < phys.kend)
    (hroot : (k.proc p).pagetable = some root) (hframe : (k.proc p).trapframe = some tf) (hsz : sz ≤ (k.proc p).sz)
    (htop : (k.proc p).sz ≤ trapframe) :
    Current k p root tf (inUse phys) ∧ UserTable userPages k.phys root (k.proc p).sz (inUse phys) := by
  have hused : ∀ {f}, f ∉ phys.freelist → ∃ q, inUse phys q = some f := fun {f} hf => ⟨f, inUse_eq_some.mpr ⟨rfl, hf⟩⟩
  have hkend' : 0 < k.phys.kend := h.kend ▸ hkend
  refine ⟨⟨hroot, hframe, ⟨h.space, htop, fun v hge hv => h.leaf_eq_none hv ?_⟩, h.low, hused htf,
    hused htramp, hkend'⟩, h.space, ⟨fun va hva hge _ => size_le_pgrounddown (BitVec.le_def.mp htop) hge,
    fun va hva hge w hw => ?_⟩, hkend'⟩
  · exact (pages_mono (BitVec.le_def.mp hsz)).trans hge
  · exact topKernel_topPages (hused htramp) (hused htf) (vpn va) w ((h.top va hva hge).symm.trans hw)

/-- The page table of a process with one page mapped. -/
def sampleTable : VmM Vm.Frame := do
  match ← procPagetable 9 8 with
  | none => return 0
  | some root =>
    let _ ← uvmalloc root 0 4096 pteW
    return root

def samplePhys : Phys := { mem := fun _ _ => 0, kend := 4096, freelist :=
  [20, 21, 22, 23, 24, 25, 26, 27, 28, 29, 30, 31, 32, 33, 34, 35, 36, 37, 38, 39, 40, 41, 42, 43] }

/-- A process of two pages, one of them mapped. -/
def sampleState (disk : Fs.Image) (root : Vm.Frame) (phys : Phys) : State where
  kern :=
    { phys := phys
      proc := update (fun _ => unusedSlot) 0
        { unusedSlot with state := .running, pid := 1, sz := 8192, pagetable := root, trapframe := some 8 }
      nextpid := 2
      fileRef _ := 0
      inodeRef _ := 0
      trampoline := 9
      forkret := 0 }
  fs := .mount disk

theorem samplePhys_heap : Heap samplePhys := by
  have hsmall : ∀ f ∈ samplePhys.freelist, 0 < f.toNat ∧ f.toNat < 2 ^ 10 := by simp [samplePhys]
  have hkend : samplePhys.kend = 4096 := rfl
  refine ⟨by decide, fun f hf => ?_⟩
  have hf' := hsmall f hf
  rw [Phys.InPool, toNat_addr, phystop, hkend]
  omega

/-- That process with the page table that `sampleTable` makes. The definition is irreducible, so that nothing but the
kernel runs a call from this state. -/
@[irreducible] def sampleStart (disk : Fs.Image) : State :=
  sampleState disk (20 : Vm.Frame) (final sampleTable samplePhys)

theorem sampleTable_spec (disk : Fs.Image) : Runs (fun _ => False) sampleTable samplePhys fun root phys =>
    Current (sampleState disk root phys).kern 0 root 8 (inUse samplePhys) ∧
      UserTable userPages phys root 8192 (inUse samplePhys) ∧ 16 ≤ phys.freelist.length ∧
      ∀ f, f ∉ samplePhys.freelist → phys.mem f = fun _ => 0 := by
  have hfree : samplePhys.freelist.length = 24 := rfl
  have hpages : pages 4096 - pages 0 = 1 := by decide
  unfold sampleTable
  refine (procPagetable_spec (inUse_exact samplePhys) samplePhys_heap).seq fun a phys ha => ?_
  rcases ha with ⟨-, -, hlen⟩ | ⟨root, rfl, hmade, hlen⟩
  · exact absurd hlen (by decide)
  · have h0 := UserMem.of_made hmade fun v hv => topPages_user hv
    refine (h0.uvmalloc pteW (by decide) 4096).seq fun sz phys' hsz => ?_
    rcases hsz with ⟨rfl, h1, hlen1⟩ | ⟨-, -, hshort⟩
    · have hcur := current_of_userMem (k := (sampleState disk root phys').kern) (p := 0) h1
        (show (9 : Vm.Frame) ∉ samplePhys.freelist by decide) (by decide) (by decide) rfl rfl
        (show 4096#64 ≤ 8192#64 by decide) (show 8192#64 ≤ trapframe by decide)
      exact .pure ⟨hcur.1, hcur.2, by omega, fun f hf => h1.kept f f (inUse_eq_some.mpr ⟨rfl, hf⟩)⟩
    · omega

theorem sample_current (disk : Fs.Image) : (sampleStart disk).fs = .mount disk ∧
    Current (sampleStart disk).kern 0 20 8 (inUse samplePhys) ∧
    UserTable userPages (sampleStart disk).kern.phys 20 ((sampleStart disk).kern.proc 0).sz (inUse samplePhys) ∧
    16 ≤ (sampleStart disk).kern.phys.freelist.length ∧
    ∀ f, f ∉ samplePhys.freelist → (sampleStart disk).kern.phys.mem f = fun _ => 0 := by
  have hroot : Runs (fun _ => False) sampleTable samplePhys fun root _ => root = 20 := by decide +kernel
  unfold sampleStart
  obtain ⟨root, hcur, rfl⟩ := ((sampleTable_spec disk).both hroot).final
  exact ⟨rfl, hcur⟩

/-- The path is in the page that is not mapped yet, and `argv` is no user address: the call fails after it has taken a
page. -/
def sampleArgs (i : Fin 6) : BitVec 64 := if i.val = 0 then 4096 else 8192

/-- There is no file `/x`; the system call fails after it has taken a page. -/
theorem failed_exec_changes_nothing_sample :
    (Runs (fun _ => False) (kexec smallSb 0 [47, 120] []) (sampleStart (smallImage 0)) fun r t => r = -1 ∧
      FsSame (sampleStart (smallImage 0)).fs t.fs ∧ Unchanged (sampleStart (smallImage 0)).kern t.kern 0 20 8 ∧
      SamePages (sampleStart (smallImage 0)).kern.phys t.kern.phys 20) ∧
    Runs (fun _ => False) (sysExec smallSb 0 sampleArgs fun _ => 1) (sampleStart (smallImage 0)) fun r t =>
      (r = -1 ∧ t.kern.phys.freelist.length + 1 = (sampleStart (smallImage 0)).kern.phys.freelist.length) ∧
      FsSame (sampleStart (smallImage 0)).fs t.fs ∧ Unchanged (sampleStart (smallImage 0)).kern t.kern 0 20 8 ∧
      FaultedIn (sampleStart (smallImage 0)).kern.phys t.kern.phys 20
        ((sampleStart (smallImage 0)).kern.proc 0).sz := by
  obtain ⟨hfs, hcur, htable, -⟩ := sample_current (smallImage 0)
  have hkexec : Runs (fun _ => False) (kexec smallSb 0 [47, 120] []) (sampleStart (smallImage 0))
      fun r _ => r = -1 := by
    decide +kernel
  have hsys : Runs (fun _ => False) (sysExec smallSb 0 sampleArgs fun _ => 1) (sampleStart (smallImage 0)) fun r t =>
      r = -1 ∧ t.kern.phys.freelist.length + 1 = (sampleStart (smallImage 0)).kern.phys.freelist.length := by
    decide +kernel
  have hboth := failed_exec_changes_nothing (hfs ▸ idle_mount small_sound) hcur htable
  refine ⟨((hkexec.and (hboth.1 [47, 120] [] ⟨by decide, nofun, nofun⟩)).weaken fun _ he => he.1).mono fun r t ht =>
    ⟨ht.1, ht.2 ht.1⟩, ((hsys.and (hboth.2 _ _)).weaken fun _ he => he.1).mono fun r t ht => ⟨ht.1, ht.2 ht.1.1⟩⟩

end

end Xv6.Exec
