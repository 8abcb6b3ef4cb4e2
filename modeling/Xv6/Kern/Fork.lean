import Xv6.Kern.Proc
import Xv6.Vm.Copy
import Xv6.Vm.Grow
import Mathlib.Algebra.BigOperators.Group.Finset.Piecewise

/-!
# Fork is all or nothing

* `Reverted s t` : the same pages are free, and those in use hold what they held;
* `allocproc_spec`, `freeproc_spec` : a process with an empty address space, and the way back;
* `kfork_all_or_nothing` : a call that returns `-1` has changed at most a free slot, one that returns a pid has made a
  copy of its caller.
-/

namespace Xv6.Kern
open Vm Fs Alloc Hoare Radix Function

/-! ## Pages in use -/

section
variable {s t u w : Phys} {root tf f : Vm.Frame} {rest : List Vm.Frame}

/-- Every page in use belongs to itself. -/
def inUse (s : Phys) (f : Vm.Frame) : Option Vm.Frame := if s.freelist.contains f then none else some f

theorem inUse_eq_some {g : Vm.Frame} : inUse s f = some g ↔ f = g ∧ f ∉ s.freelist := by
  rw [inUse]
  by_cases hf : f ∈ s.freelist <;> simp [hf]

theorem inUse_exact (s : Phys) : Exact s.Used (inUse s) [] where
  used_iff f := by
    refine ⟨fun hf => .inl ⟨f, inUse_eq_some.mpr ⟨rfl, hf⟩⟩, fun hf => ?_⟩
    rcases hf with ⟨g, hg⟩ | hf
    · obtain ⟨rfl, hused⟩ := inUse_eq_some.mp hg
      exact hused
    · exact absurd hf List.not_mem_nil
  once hp hq := (inUse_eq_some.mp hp).1.trans (inUse_eq_some.mp hq).1.symm
  not_held _ := List.not_mem_nil
  nodup := List.nodup_nil

/-- The same pages are free, and the others are as they were. -/
structure Reverted (s t : Phys) : Prop where
  kend : t.kend = s.kend
  free : ∀ f, f ∈ t.freelist ↔ f ∈ s.freelist
  mem : ∀ f, f ∉ s.freelist → t.mem f = s.mem f
  heap : Heap t

theorem Reverted.refl (hs : Heap s) : Reverted s s := ⟨rfl, fun _ => Iff.rfl, fun _ _ => rfl, hs⟩

theorem reverted_of_freed (h : Freed s t (inUse s) []) : Reverted s t where
  kend := h.kend
  free f := by
    have hused := h.exact.used_iff f
    rw [Phys.Used] at hused
    have hiff : (∃ g, inUse s g = some f) ↔ f ∉ s.freelist := by
      refine ⟨fun ⟨g, hg⟩ => ?_, fun hf => ⟨f, inUse_eq_some.mpr ⟨rfl, hf⟩⟩⟩
      obtain ⟨rfl, hf⟩ := inUse_eq_some.mp hg
      exact hf
    rw [hiff, or_iff_left List.not_mem_nil] at hused
    exact not_iff_not.mp hused
  mem f hf := h.mem f (.inl ⟨f, inUse_eq_some.mpr ⟨rfl, hf⟩⟩)
  heap := h.heap

/-- The state after `kalloc()` has returned `tf`. -/
def taken (s : Phys) (tf : Vm.Frame) (rest : List Vm.Frame) : Phys :=
  { s with mem := s.mem.fill tf 5, freelist := rest }

theorem taken_exact (hs : Heap s) (hfree : s.freelist = tf :: rest) : Exact (taken s tf rest).Used (inUse s) [tf] :=
  (inUse_exact s).alloc (fun hc => hc (hfree ▸ List.mem_cons_self)) (used_take hfree hs.nodup (s.mem.fill tf 5))

theorem taken_heap (hs : Heap s) (hfree : s.freelist = tf :: rest) : Heap (taken s tf rest) :=
  ⟨(List.nodup_cons.mp (hfree ▸ hs.nodup)).2, fun f hf => hs.pool f (hfree ▸ List.mem_cons_of_mem tf hf)⟩

theorem taken_mem (hfree : s.freelist = tf :: rest) (hf : f ∉ s.freelist) : (taken s tf rest).mem f = s.mem f := by
  refine fill_of_ne ?_
  rintro rfl
  exact hf (hfree ▸ List.mem_cons_self)

/-- The page goes back. -/
theorem reverted_of_taken (hfree : s.freelist = tf :: rest) (h : Freed (taken s tf rest) t (inUse s) []) :
    Reverted s t := by
  refine reverted_of_freed ⟨h.kend, h.exact, h.heap, fun f hf => ?_⟩
  have hused : f ∉ s.freelist := by
    rcases hf with ⟨g, hg⟩ | hf
    · obtain ⟨rfl, hused⟩ := inUse_eq_some.mp hg
      exact hused
    · exact absurd hf List.not_mem_nil
  rw [h.mem f hf, taken_mem hfree hused]

end

/-! ## Programs -/

section
variable {A : Type} {R : Panic → Prop} {Q : A → State → Prop} {s : State} {p np : Slot} {root tf : Vm.Frame}
  {old src : Vm.Frame} {cwd : Ip} {phys : Phys}

theorem vm_bind {B : Type} {m : VmM B} {k : B → KernM A} {P : B → Phys → Prop}
    (hm : Runs (fun e => R (.vm e)) m s.phys P) (hk : ∀ b phys, P b phys → Runs R (k b) { s with phys := phys } Q) :
    Runs R (vm m >>= k) s Q := by
  have hvm : Runs R (vm m) s fun b t => ∃ phys, P b phys ∧ t = { s with phys := phys } := by
    rw [Runs, vm]
    rw [Runs] at hm
    revert hm
    cases m s.phys with
    | error e => exact id
    | ok r => exact fun hr => ⟨r.2, hr, rfl⟩
  refine hvm.seq fun b t ht => ?_
  obtain ⟨phys, hQ, rfl⟩ := ht
  exact hk b phys hQ

theorem setProc_bind {f : Proc → Proc} {k : Unit → KernM A}
    (h : Runs R (k ()) { s with proc := update s.proc p (f (s.proc p)) } Q) : Runs R (setProc p f >>= k) s Q :=
  Runs.modify_bind h

theorem deref_bind {B : Type} {o : Option B} {b : B} {k : B → KernM A} (ho : o = some b) (h : Runs R (k b) s Q) :
    Runs R (deref o >>= k) s Q := by
  rw [ho]
  exact .pure_bind h

/-- A slot without memory is reset. -/
theorem freeproc_none (htf : (s.proc p).trapframe = none) (hpt : (s.proc p).pagetable = none) :
    Runs R (freeproc p) s fun _ t => t = { s with proc := update s.proc p (s.proc p).reset } := by
  unfold freeproc
  refine .get_bind ?_
  rw [htf]
  refine .pure_bind (.get_bind ?_)
  rw [hpt]
  exact .pure_bind (.of_modify rfl)

/-- A slot with a trapframe and no page table. -/
theorem freeproc_trapframe (htf : (s.proc p).trapframe = some tf) (hpt : (s.proc p).pagetable = none)
    (hpool : s.phys.InPool tf) :
    Runs R (freeproc p) s fun _ t => t = { s with
      phys := { s.phys with mem := s.phys.mem.fill tf 1, freelist := tf :: s.phys.freelist },
      proc := update s.proc p (s.proc p).reset } := by
  unfold freeproc
  refine .get_bind ?_
  rw [htf]
  refine vm_bind (kfree_spec hpool) fun _ phys hphys => .get_bind ?_
  dsimp only
  rw [hpt]
  refine .pure_bind (.of_modify ?_)
  rw [hphys]

/-- A process and its address space go. -/
theorem freeproc_spec {P : Type} [DecidableEq P] {ext : P → Option Vm.Frame} {q : P}
    (htf : (s.proc p).trapframe = some tf) (hpt : (s.proc p).pagetable = some root)
    (hspace : Space userPages s.phys root ext []) (hq : ext q = some tf) (hpool : s.phys.InPool tf)
    (hlow : Low s.phys.mem root) (hsz : turns 0 (s.proc p).sz ≤ userPages)
    (hrest : ∀ v < userPages, turns 0 (s.proc p).sz ≤ v → leaf s.phys.mem root (vaOf v) = none) :
    Runs R (freeproc p) s fun _ t => ∃ phys, Freed s.phys phys (update ext q none) [] ∧
      t = { s with phys := phys, proc := update s.proc p (s.proc p).reset } := by
  obtain ⟨hgive, hmoved⟩ := (hspace.detach hq).give hpool
  unfold freeproc
  refine .get_bind ?_
  rw [htf]
  refine vm_bind (kfree_spec hpool) fun _ phys hphys => .get_bind ?_
  dsimp only
  rw [hpt]
  refine .get_bind ?_
  rw [← hphys] at hgive hmoved
  refine vm_bind (procFreepagetable_spec hgive (hmoved.keeps.low hlow) hsz fun v hv hle => ?_) fun _ phys' hphys' => ?_
  · rw [hmoved.leaf, hrest v hv hle]
  · exact .of_modify ⟨phys', .of_keeps hmoved.keeps.outer hphys', rfl⟩

/-! ## Slots -/

/-- A process without user memory: its pages were free in `s`, and what was in use is as it was. -/
structure Prepared (s t : Phys) (root tf : Vm.Frame) : Prop where
  fresh : tf ∈ s.freelist
  space : Space userPages t root (update (inUse s) tf (some tf)) []
  low : Low t.mem root
  kend : t.kend = s.kend
  mem : ∀ f, f ∉ s.freelist → t.mem f = s.mem f
  empty : ∀ v < userPages, leaf t.mem root (vaOf v) = none

theorem prepared_of_made {s t : Phys} {rest : List Vm.Frame} {tramp : Vm.Frame} (hfree : s.freelist = tf :: rest)
    (h : Made (taken s tf rest) t root (inUse s) [tf] (topPages tramp tf)) : Prepared s t root tf := by
  have hmem : tf ∈ s.freelist := hfree ▸ List.mem_cons_self
  have hempty : ∀ v < userPages, leaf t.mem root (vaOf v) = none := by
    intro v hv
    have hlt : v < 2 ^ 26 := hv.trans (by decide)
    rw [h.leaf _ (vaOf_lt hlt), vpn_vaOf hlt, topPages, update_of_ne (Nat.ne_of_lt hv), update_of_ne]
    rw [userPages] at hv
    omega
  have hframes : ∀ v, leafFrames userPages t.mem root v = none := by
    intro v
    by_cases hv : v < userPages
    · exact leafFrames_of_none (hempty v hv)
    · exact if_neg hv
  have hspace : Space userPages t root (inUse s) [tf] := by
    refine ⟨h.tree.empty hframes, h.sound, fun v f hf => ?_, by decide⟩
    rw [hframes] at hf
    cases hf
  refine ⟨hmem, hspace.attach ?_, h.low, h.kend, fun f hf => ?_, hempty⟩
  · rw [inUse, if_pos (List.contains_iff_mem.mpr hmem)]
  · rw [h.mem f (.inl ⟨f, inUse_eq_some.mpr ⟨rfl, hf⟩⟩), taken_mem hfree hf]

/-- The slot after `allocproc()`. -/
def Proc.allocated (p : Proc) (pid : Int) (root tf : Vm.Frame) (forkret : BitVec 64) : Proc :=
  { p with
    pid := pid, state := .used, priority := priorityDefault, waitTicks := 0, trapframe :=
      some tf, pagetable := some root,
    context := entryContext forkret p.kstack }

theorem unused_state (h : s.unused = some p) : (s.proc p).state = .unused := by
  have hfound := List.find?_some h
  exact of_decide_eq_true hfound

theorem allocproc_spec (hs : Heap s.phys) (hclean : ∀ p, (s.proc p).state = .unused → (s.proc p).pagetable = none) :
    Runs R allocproc s fun a t =>
      (a = none ∧ s.unused = none ∧ t = s) ∨
      (a = none ∧ ∃ p phys, s.unused = some p ∧ Reverted s.phys phys ∧
        t = { s with phys := phys, nextpid := nextPid s.nextpid, proc := update s.proc p (s.proc p).reset }) ∨
      ∃ p phys root tf, a = some p ∧ s.unused = some p ∧ Prepared s.phys phys root tf ∧
        t = { s with
          phys := phys, nextpid := nextPid s.nextpid,
          proc := update s.proc p ((s.proc p).allocated s.nextpid root tf s.forkret) } := by
  unfold allocproc
  refine .get_bind ?_
  cases hunused : s.unused with
  | none => exact .pure (.inl ⟨rfl, rfl, rfl⟩)
  | some p =>
    have hpt := hclean p (unused_state hunused)
    dsimp only
    refine .seq (m := allocpid) (Q := fun a t => a = s.nextpid ∧
      t = { s with nextpid := nextPid s.nextpid }) ⟨rfl, rfl⟩ ?_
    rintro _ _ ⟨rfl, rfl⟩
    refine setProc_bind (vm_bind kalloc_spec fun tf phys htf => setProc_bind ?_)
    dsimp only
    simp only [update_self, update_idem]
    rcases htf with ⟨rfl, -, rfl⟩ | ⟨tf, rest, rfl, hfree, rfl⟩
    · refine (freeproc_none ?_ ?_).seq fun _ t ht => .pure (.inr (.inl ⟨rfl, p, s.phys, rfl, .refl hs, ?_⟩))
      · dsimp only
        rw [update_self]
      · dsimp only
        rw [update_self, hpt]
      · rw [ht]
        dsimp only
        simp only [update_self, update_idem]
        rfl
    · have hexact := taken_exact hs hfree
      dsimp only
      refine .get_bind (vm_bind (procPagetable_spec hexact (taken_heap hs hfree)) fun a phys ha => setProc_bind ?_)
      dsimp only
      simp only [update_self, update_idem]
      rcases ha with ⟨rfl, ha, -⟩ | ⟨root, rfl, ha, -⟩
      · have hpool : phys.InPool tf := (inPool_congr ha.kend).mpr (hs.pool tf (hfree ▸ List.mem_cons_self))
        have hrev := reverted_of_taken hfree (ha.give hpool)
        refine (freeproc_trapframe ?_ ?_ hpool).seq fun _ t ht =>
          Runs.pure (.inr (.inl ⟨rfl, p, _, rfl, hrev, ?_⟩))
        · dsimp only
          rw [update_self]
        · dsimp only
          rw [update_self]
        · rw [ht]
          dsimp only
          simp only [update_self, update_idem]
          rfl
      · dsimp only
        refine .get_bind
          (setProc_bind (.pure (.inr (.inr ⟨p, phys, root, tf, rfl, rfl, prepared_of_made hfree ha, ?_⟩))))
        dsimp only
        simp only [update_self, update_idem]
        rfl

/-! ## Fork -/

/-- How many of the first `k` descriptors are open on `f`. -/
def opens (ofile : Fin nofile → Option (Fin nfile)) (k : Nat) (f : Fin nfile) : Nat :=
  (Finset.univ.filter fun i : Fin nofile => i.val < k ∧ ofile i = some f).card

theorem opens_zero (ofile : Fin nofile → Option (Fin nfile)) (f : Fin nfile) : opens ofile 0 f = 0 := by
  rw [opens, Finset.card_eq_zero, Finset.filter_eq_empty_iff]
  exact fun i _ hi => Nat.not_lt_zero _ hi.1

theorem opens_succ (ofile : Fin nofile → Option (Fin nfile)) (i : Fin nofile) (f : Fin nfile) :
    opens ofile (i + 1) f = opens ofile i f + if ofile i = some f then 1 else 0 := by
  have hsplit : ∀ j : Fin nofile, (if j.val < i.val + 1 ∧ ofile j = some f then 1 else 0) =
      (if j.val < i.val ∧ ofile j = some f then 1 else 0) +
        if j = i then (if ofile i = some f then 1 else 0) else 0 := by
    intro j
    by_cases hj : j = i
    · simp [hj]
    · have hne : j.val ≠ i.val := fun hc => hj (Fin.ext hc)
      have hiff : j.val < i.val + 1 ↔ j.val < i.val := by omega
      simp [hj, hiff]
  rw [opens, opens, Finset.card_filter, Finset.card_filter, Finset.sum_congr rfl fun j _ => hsplit j,
    Finset.sum_add_distrib, Finset.sum_ite_eq', if_pos (Finset.mem_univ i)]

/-- The reference counts and the descriptors of slot `np` have changed. -/
def State.withFiles (s : State) (np : Slot) (ref : Fin nfile → Int) (ofile : Fin nofile → Option (Fin nfile)) : State :=
  { s with fileRef := ref, proc := update s.proc np { s.proc np with ofile := ofile } }

/-- The first `k` descriptors have been copied. -/
def duped (s : State) (p np : Slot) (k : Nat) : State :=
  s.withFiles np (fun f => s.fileRef f + opens (s.proc p).ofile k f) fun i =>
    if i.val < k then (s.proc p).ofile i else (s.proc np).ofile i

theorem duped_zero : duped s p np 0 = s := by
  have hofile : (fun i : Fin nofile => if i.val < 0 then (s.proc p).ofile i else (s.proc np).ofile i) =
      (s.proc np).ofile :=
    funext fun i => if_neg (Nat.not_lt_zero _)
  have href : (fun f => s.fileRef f + (opens (s.proc p).ofile 0 f : Int)) = s.fileRef := by
    funext f
    rw [opens_zero, Int.natCast_zero, Int.add_zero]
  rw [duped, hofile, href, State.withFiles]
  show { s with proc := update s.proc np (s.proc np) } = s
  rw [update_eq_self]

theorem duped_all :
    duped s p np nofile = s.withFiles np (fun f => s.fileRef f + opens (s.proc p).ofile nofile f) (s.proc p).ofile := by
  have hofile : (fun i : Fin nofile => if i.val < nofile then (s.proc p).ofile i else (s.proc np).ofile i) =
      (s.proc p).ofile :=
    funext fun i => if_pos i.isLt
  rw [duped, hofile]

theorem dupFile_spec (hne : p ≠ np) (hnone : ∀ i, (s.proc np).ofile i = none)
    (href : ∀ i f, (s.proc p).ofile i = some f → 1 ≤ s.fileRef f) (i : Fin nofile) :
    Runs R (dupFile p np i) (duped s p np i) fun _ t => t = duped s p np (i + 1) := by
  have hofile : ((duped s p np i).proc p).ofile = (s.proc p).ofile := by
    show (update s.proc np _ p).ofile = _
    rw [update_of_ne hne]
  have hnext : (fun j : Fin nofile => if j.val < i.val + 1 then (s.proc p).ofile j else (s.proc np).ofile j) =
      update (fun j => if j.val < i.val then (s.proc p).ofile j else (s.proc np).ofile j) i ((s.proc p).ofile i) := by
    funext j
    by_cases hj : j = i
    · rw [hj, update_self, if_pos (Nat.lt_succ_self _)]
    · have hne : j.val ≠ i.val := fun hc => hj (Fin.ext hc)
      have hiff : j.val < i.val + 1 ↔ j.val < i.val := by omega
      rw [update_of_ne hj]
      simp only [hiff]
  unfold dupFile
  refine .get_bind ?_
  rw [hofile]
  cases hi : (s.proc p).ofile i with
  | none =>
    refine .pure ?_
    have hcount : ∀ f, opens (s.proc p).ofile (i + 1) f = opens (s.proc p).ofile i f := by
      intro f
      rw [opens_succ, hi, if_neg (Option.some_ne_none f).symm, Nat.add_zero]
    have hsame :
        update (fun j : Fin nofile => if j.val < i.val then (s.proc p).ofile j else (s.proc np).ofile j) i none =
        fun j => if j.val < i.val then (s.proc p).ofile j else (s.proc np).ofile j := by
      rw [update_eq_self_iff, if_neg (Nat.lt_irrefl _), hnone]
    rw [duped, duped, hnext, hi, hsame]
    simp only [hcount]
  | some f =>
    have hpos : ¬ (duped s p np i).fileRef f < 1 := by
      show ¬ s.fileRef f + (opens (s.proc p).ofile i f : Int) < 1
      have hle := href i f hi
      omega
    have hcount : (fun g => s.fileRef g + (opens (s.proc p).ofile (i + 1) g : Int)) =
        update (fun g => s.fileRef g + (opens (s.proc p).ofile i g : Int)) f
          (s.fileRef f + (opens (s.proc p).ofile i f : Int) + 1) := by
      funext g
      by_cases hg : g = f
      · rw [hg, update_self, opens_succ, if_pos hi]
        push_cast
        omega
      · rw [update_of_ne hg, opens_succ, if_neg, Nat.add_zero]
        rw [hi]
        exact fun hc => hg (Option.some.inj hc).symm
    unfold filedup
    refine .seq (Q := fun _ t => t = { duped s p np i with
      fileRef := update (duped s p np i).fileRef f ((duped s p np i).fileRef f + 1) }) ?_ fun _ t ht => ?_
    · refine .get_bind ?_
      rw [if_neg hpos]
      exact .of_modify rfl
    · rw [ht]
      refine .of_modify ?_
      rw [duped, duped, hnext, hi, hcount]
      simp only [State.withFiles, update_self, update_idem]

/-- What a caller of `kfork()` has, and what the slots that are free do not have. -/
structure Ready (s : State) (p : Slot) (root tf : Vm.Frame) (cwd : Ip) : Prop where
  heap : Heap s.phys
  live : (s.proc p).state ≠ .unused
  pagetable : (s.proc p).pagetable = some root
  trapframe : (s.proc p).trapframe = some tf
  cwd : (s.proc p).cwd = some cwd
  table : ∀ path f, tables s.phys.mem root path = some f → f ∉ s.phys.freelist
  page : ∀ va < maxva, ∀ w, leaf s.phys.mem root va = some w → pteFrame w ∉ s.phys.freelist
  registers : tf ∉ s.phys.freelist
  sz : (s.proc p).sz ≤ Vm.trapframe
  priority : priorityValid (s.proc p).priority
  files : ∀ i f, (s.proc p).ofile i = some f → 1 ≤ s.fileRef f
  nextpid : 0 < s.nextpid
  clean : ∀ q, (s.proc q).state = .unused → (s.proc q).pagetable = none ∧ (s.proc q).sz = 0 ∧
    ∀ i, (s.proc q).ofile i = none

/-- The registers of the new process. -/
def copyRegisters (s : Phys) (src dst : Vm.Frame) : Phys :=
  { s with mem := (s.mem.store dst 0 trapframeSize (s.mem src)).setPte dst regA0 0 }

/-- The slot after `inherit`. -/
def Proc.inherited (q parent : Proc) (p : Slot) : Proc :=
  { q with
    state := .runnable, sz := parent.sz, priority := parent.priority, waitTicks := 0, ofile :=
      parent.ofile, cwd := parent.cwd
    name := safestrcpy q.name parent.name 16, parent := some p }

/-- The state after `inherit`. -/
def State.inherited (s : State) (p np : Slot) (src dst : Vm.Frame) (cwd : Ip) : State :=
  { s with
    phys := copyRegisters s.phys src dst
    fileRef := fun f => s.fileRef f + opens (s.proc p).ofile nofile f
    inodeRef := update s.inodeRef cwd (s.inodeRef cwd + 1)
    proc := update s.proc np ((s.proc np).inherited (s.proc p) p) }

theorem inherit_spec (src dst : Vm.Frame) (cwd : Ip) (hne : p ≠ np) (hsrc : (s.proc p).trapframe = some src)
    (hdst : (s.proc np).trapframe = some dst) (hcwd : (s.proc p).cwd = some cwd)
    (hnone : ∀ i, (s.proc np).ofile i = none) (href : ∀ i f, (s.proc p).ofile i = some f → 1 ≤ s.fileRef f)
    (hprio : priorityValid (s.proc p).priority) :
    Runs R (inherit p np (s.proc p).sz (s.proc p).priority) s fun r t =>
      r = (s.proc np).pid ∧ t = s.inherited p np src dst cwd := by
  unfold inherit
  refine setProc_bind (.get_bind ?_)
  simp only [update_of_ne hne]
  refine deref_bind hsrc (.get_bind ?_)
  simp only [update_self]
  refine deref_bind hdst ?_
  refine vm_bind (P := fun _ t => t = { s.phys with mem := s.phys.mem.store dst 0 trapframeSize (s.phys.mem src) })
    (.of_modify rfl) fun _ _ hstore => ?_
  rw [hstore]
  refine vm_bind (P := fun _ t => t = copyRegisters s.phys src dst) (.of_modify rfl) fun _ _ hregs => ?_
  rw [hregs]
  refine setProc_bind ?_
  simp only [update_self, update_idem]
  generalize hl : List.finRange nofile = l
  obtain ⟨q, hq⟩ : ∃ q : Proc,
      q = { s.proc np with sz := (s.proc p).sz, priority := (s.proc p).priority, waitTicks := 0 } :=
    ⟨_, rfl⟩
  obtain ⟨u, hu⟩ : ∃ u : State, u = { s with
    phys := copyRegisters s.phys src dst, proc := update s.proc np q } := ⟨_, rfl⟩
  have hup : u.proc p = s.proc p := by
    rw [hu]
    exact update_of_ne hne ..
  have hunp : u.proc np = q := by
    rw [hu]
    exact update_self ..
  rw [if_pos hprio, ← hq, ← hu]
  refine .seq (Runs.forM_finRange (I := fun k t => t = duped u p np k) hl.symm ?_ fun i t ht => ?_) fun _ t ht => ?_
  · exact duped_zero.symm
  · rw [ht]
    refine dupFile_spec hne ?_ ?_ i
    · rw [hunp, hq]
      exact hnone
    · rw [hup, hu]
      exact href
  · rw [ht, duped_all, hup]
    refine .get_bind ?_
    have hcwd' : some cwd =
        ((u.withFiles np (fun f => u.fileRef f + opens (s.proc p).ofile nofile f) (s.proc p).ofile).proc p).cwd := by
      show _ = (update u.proc np _ p).cwd
      rw [update_of_ne hne, hup, hcwd]
    refine deref_bind hcwd'.symm (.modify_bind (setProc_bind (.get_bind (setProc_bind (.get_bind (setProc_bind
      (setProc_bind (.pure ?_))))))))
    simp only [State.withFiles, update_self, update_idem, update_of_ne hne, hunp, hup]
    refine ⟨by rw [hq], ?_⟩
    rw [hu, hq]
    simp only [State.inherited, Proc.inherited, update_idem, hcwd]

theorem Ready.outside (h : Ready s p old src cwd) (hprep : Prepared s.phys phys root tf) :
    Outside phys old (update (inUse s.phys) tf (some tf)) := by
  have howner : ∀ f, f ∉ s.phys.freelist → ∃ q, update (inUse s.phys) tf (some tf) q = some f := by
    intro f hf
    refine ⟨f, ?_⟩
    rw [update_of_ne, inUse_eq_some]
    · exact ⟨rfl, hf⟩
    · rintro rfl
      exact hf hprep.fresh
  have hmem : ∀ path f, tables s.phys.mem old path = some f → phys.mem f = s.phys.mem f :=
    fun path f hf => hprep.mem f (h.table path f hf)
  refine ⟨fun path f hf => howner f (h.table path f ?_), fun va hva w hw => howner _ (h.page va hva w ?_)⟩
  · rwa [tables_congr hmem] at hf
  · rwa [leaf_congr hmem] at hw

/-- The pages of a process whose memory could not be copied go back. -/
theorem reverted_of_restored {s phys' phys'' : Phys} (hprep : Prepared s phys root tf)
    (hres : Restored userPages phys phys' root (update (inUse s) tf (some tf)))
    (hfreed : Freed phys' phys'' (update (update (inUse s) tf (some tf)) tf none) []) : Reverted s phys'' := by
  have hnone : inUse s tf = none := by rw [inUse, if_pos (List.contains_iff_mem.mpr hprep.fresh)]
  rw [update_idem, update_eq_self_iff.mpr hnone.symm] at hfreed
  refine reverted_of_freed ⟨hfreed.kend.trans (hres.keeps.kend.trans hprep.kend), hfreed.exact,
    hfreed.heap, fun f hf => ?_⟩
  rcases hf with ⟨g, hg⟩ | hf
  · have hused := (inUse_eq_some.mp hg).2
    obtain rfl := (inUse_eq_some.mp hg).1
    have hne : g ≠ tf := by
      rintro rfl
      exact hused hprep.fresh
    have howner : update (inUse s) tf (some tf) g = some g := by rw [update_of_ne hne, hg]
    rw [hfreed.mem g (.inl ⟨g, hg⟩), hres.keeps.outer.mem g (.inl ⟨g, howner⟩), hprep.mem g hused]
  · exact absurd hf List.not_mem_nil

/-- The state after `allocproc()`. -/
def State.allocated (s : State) (np : Slot) (root tf : Vm.Frame) (phys : Phys) : State :=
  { s with
    phys := phys, nextpid := nextPid s.nextpid
    proc := update s.proc np ((s.proc np).allocated s.nextpid root tf s.forkret) }

theorem allocated_self :
    (s.allocated np root tf phys).proc np = (s.proc np).allocated s.nextpid root tf s.forkret := update_self ..

theorem allocated_of_ne (hne : p ≠ np) : (s.allocated np root tf phys).proc p = s.proc p :=
  update_of_ne hne ..

/-- The state after a failed call: at most a free slot has changed. -/
def State.undone (s : State) (np : Slot) (context : Fin 14 → BitVec 64) (phys : Phys) : State :=
  { s with
    phys := phys, nextpid := nextPid s.nextpid
    proc := update s.proc np { (s.proc np).reset with context := context } }

/-- `freeproc()` of a process whose memory could not be copied. -/
theorem abandon_spec {phys' : Phys} (hs : Heap s.phys) (hprep : Prepared s.phys phys root tf)
    (hres : Restored userPages phys phys' root (update (inUse s.phys) tf (some tf))) (hsz : (s.proc np).sz = 0) :
    Runs R (freeproc np) (s.allocated np root tf phys') fun _ t => ∃ phys'' context, Reverted s.phys phys'' ∧
      t = s.undone np context phys'' := by
  have hq : update (inUse s.phys) tf (some tf) tf = some tf := update_self ..
  have hpool : phys'.InPool tf := (inPool_congr (hres.keeps.kend.trans hprep.kend)).mpr (hs.pool tf hprep.fresh)
  have hturns : turns 0 ((s.allocated np root tf phys').proc np).sz = 0 := by
    rw [allocated_self]
    show turns 0 (s.proc np).sz = 0
    rw [hsz]
    rfl
  have hspace : Space userPages (s.allocated np root tf phys').phys root (update (inUse s.phys) tf (some tf))
      [] := hres.space
  have htf : ((s.allocated np root tf phys').proc np).trapframe = some tf := by
    rw [allocated_self]
    rfl
  have hpt : ((s.allocated np root tf phys').proc np).pagetable = some root := by
    rw [allocated_self]
    rfl
  have hlow : Low (s.allocated np root tf phys').phys.mem root := hres.keeps.low hprep.low
  refine (freeproc_spec htf hpt hspace hq hpool hlow ?_ ?_).mono fun _ t ht => ?_
  · rw [hturns]
    exact Nat.zero_le _
  · intro v hv _
    show leaf phys'.mem root (vaOf v) = none
    rw [hres.leaf _ (vaOf_lt (hv.trans (by decide))), hprep.empty v hv]
  · obtain ⟨phys'', hfreed, rfl⟩ := ht
    refine ⟨phys'', entryContext s.forkret (s.proc np).kstack, reverted_of_restored hprep hres hfreed, ?_⟩
    rw [allocated_self, State.allocated, State.undone, update_idem]
    rfl

theorem kfork_spec (h : Ready s p old src cwd) :
    Runs R (kfork p) s fun r t =>
      (r = -1 ∧ s.unused = none ∧ t = s) ∨
      (r = -1 ∧ ∃ np phys context, s.unused = some np ∧ Reverted s.phys phys ∧ t = s.undone np context phys) ∨
      ∃ np root tf phys phys', s.unused = some np ∧ Prepared s.phys phys root tf ∧
        Filled userPages phys phys' root (update (inUse s.phys) tf (some tf)) 0 (turns 0 (s.proc p).sz)
          (copyWant phys old) ∧
        r = s.nextpid ∧ t = (s.allocated np root tf phys').inherited p np src tf cwd := by
  unfold kfork
  refine (allocproc_spec h.heap fun q hq => (h.clean q hq).1).seq fun a t ht => ?_
  rcases ht with ⟨rfl, hnone, rfl⟩ | ⟨rfl, np, phys, hnp, hrev, rfl⟩ | ⟨np, phys, root, tf, rfl, hnp, hprep, ht⟩
  · exact .pure (.inl ⟨rfl, hnone, rfl⟩)
  · exact .pure (.inr (.inl ⟨rfl, np, phys, (s.proc np).context, hnp, hrev, rfl⟩))
  · have hne : p ≠ np := by
      rintro rfl
      exact h.live (unused_state hnp)
    have hturns : turns 0 (s.proc p).sz ≤ userPages := by
      have hsz : (s.proc p).sz.toNat ≤ userPages * 4096 := h.sz
      rw [turns_zero]
      rw [userPages] at hsz ⊢
      omega
    obtain rfl : t = s.allocated np root tf phys := ht
    have hclean := h.clean np (unused_state hnp)
    refine .get_bind (.get_bind ?_)
    simp only [allocated_of_ne hne]
    refine deref_bind h.pagetable (.get_bind ?_)
    simp only [allocated_self]
    refine deref_bind rfl (.get_bind ?_)
    simp only [allocated_of_ne hne]
    refine vm_bind (uvmcopy_spec hprep.space hprep.empty (h.outside hprep) (.inl hturns)) fun r phys' hr => ?_
    obtain ⟨u, hu⟩ : ∃ u, u = s.allocated np root tf phys' := ⟨_, rfl⟩
    have hu' : { s.allocated np root tf phys with phys := phys' } = u := hu.symm
    rw [hu']
    rcases hr.2 with ⟨rfl, hfill, -⟩ | ⟨rfl, hres⟩
    · have hup : u.proc p = s.proc p := by rw [hu, allocated_of_ne hne]
      have hunp : u.proc np = (s.proc np).allocated s.nextpid root tf s.forkret := by rw [hu, allocated_self]
      rw [if_neg (by decide), ← hup]
      refine (inherit_spec src tf cwd hne ?_ ?_ ?_ ?_ ?_ ?_).mono fun r t hrt => ?_
      · rw [hup, h.trapframe]
      · rw [hunp]
        rfl
      · rw [hup, h.cwd]
      · rw [hunp]
        exact hclean.2.2
      · rw [hup, hu]
        exact h.files
      · rw [hup]
        exact h.priority
      · refine .inr (.inr ⟨np, root, tf, phys, phys', hnp, hprep, ?_, ?_, ?_⟩)
        · rw [hup]
          exact hfill
        · rw [hrt.1, hunp]
          rfl
        · rw [hrt.2, hu]
    · rw [if_pos (by decide), hu]
      refine (abandon_spec h.heap hprep hres hclean.2.1).seq fun _ t ht => ?_
      obtain ⟨phys'', context, hrev, rfl⟩ := ht
      exact .pure (.inr (.inl ⟨rfl, np, phys'', context, hnp, hrev, rfl⟩))

/-! ## All or nothing -/

/-- What a call that fails may have changed: `nextpid`, and a slot that was free and is free. -/
structure Undone (s t : State) : Prop where
  phys : Reverted s.phys t.phys
  fileRef : t.fileRef = s.fileRef
  inodeRef : t.inodeRef = s.inodeRef
  nextpid : t.nextpid = s.nextpid ∨ t.nextpid = nextPid s.nextpid
  proc : ∃ np context, (∀ q, q ≠ np → t.proc q = s.proc q) ∧
    (t.proc np = s.proc np ∨
      (s.proc np).state = .unused ∧ t.proc np = { (s.proc np).reset with context := context })

/-- Slot `np` holds a copy of its parent `p`, and what was in use before is as it was. -/
structure Forked (s t : State) (p np : Slot) (pid : Int) : Prop where
  free : (s.proc np).state = .unused
  others : ∀ q, q ≠ np → t.proc q = s.proc q
  mem : ∀ f, f ∉ s.phys.freelist → t.phys.mem f = s.phys.mem f
  state : (t.proc np).state = .runnable
  pid : (t.proc np).pid = pid
  parent : (t.proc np).parent = some p
  priority : (t.proc np).priority = (s.proc p).priority
  waitTicks : (t.proc np).waitTicks = 0
  registers : ∃ src dst, (s.proc p).trapframe = some src ∧ (t.proc np).trapframe = some dst ∧
    ∀ i : Fin 512, 8 * i.val < trapframeSize → t.phys.mem.pte dst i = if i = regA0 then 0 else s.phys.mem.pte src i
  ofile : (t.proc np).ofile = (s.proc p).ofile
  fileRef : ∀ f, t.fileRef f = s.fileRef f + (Finset.univ.filter fun i => (s.proc p).ofile i = some f).card
  cwd : (t.proc np).cwd = (s.proc p).cwd
  inodeRef : ∀ ip, t.inodeRef ip = s.inodeRef ip + if (s.proc p).cwd = some ip then 1 else 0

theorem pte_copyRegisters {s : Phys} {dst : Vm.Frame} {i : Fin 512} (hi : 8 * i.val < trapframeSize) :
    (copyRegisters s src dst).mem.pte dst i = if i = regA0 then 0 else s.mem.pte src i := by
  rw [trapframeSize] at hi
  show ((s.mem.store dst 0 trapframeSize (s.mem src)).setPte dst regA0 0).pte dst i = _
  by_cases h0 : i = regA0
  · rw [if_pos h0, h0, pte_setPte_self]
  · rw [if_neg h0, pte_setPte_ne (.inr h0), Mem.pte, Mem.pte]
    congr 1
    refine Bytes.le_congr fun j hj => ?_
    rw [Mem.store, update_self, if_pos, Nat.sub_zero]
    rw [trapframeSize]
    omega

theorem mem_copyRegisters {s : Phys} {dst f : Vm.Frame} (hne : f ≠ dst) :
    (copyRegisters s src dst).mem f = s.mem f := by
  show (s.mem.store dst 0 trapframeSize (s.mem src)).setPte dst regA0 0 f = _
  rw [setPte_of_ne hne, Mem.store, update_of_ne hne]

theorem opens_all (ofile : Fin nofile → Option (Fin nfile)) (f : Fin nfile) :
    opens ofile nofile f = (Finset.univ.filter fun i => ofile i = some f).card := by
  rw [opens]
  congr 1
  refine Finset.filter_congr fun i _ => ?_
  rw [and_iff_right i.isLt]

theorem undone_of_undone {context : Fin 14 → BitVec 64} (hnp : s.unused = some np) (hrev : Reverted s.phys phys) :
    Undone s (s.undone np context phys) :=
  ⟨hrev, rfl, rfl, .inr rfl, np, context, fun _ hq => update_of_ne hq .., .inr ⟨unused_state hnp, update_self ..⟩⟩

/-- **`kfork()` is all or nothing.** -/
theorem kfork_all_or_nothing (h : Ready s p old src cwd) :
    Runs (fun _ => False) (kfork p) s fun r t => (r = -1 → Undone s t) ∧ (r ≠ -1 → ∃ np, Forked s t p np r) := by
  refine (kfork_spec h).mono fun r t ht => ?_
  rcases ht with ⟨rfl, -, rfl⟩ | ⟨rfl, np, phys, context, hnp, hrev, rfl⟩ |
    ⟨np, root, tf, phys, phys', hnp, hprep, hfill, rfl, rfl⟩
  · exact ⟨fun _ => ⟨.refl h.heap, rfl, rfl, .inl rfl, p, (t.proc p).context, fun _ _ => rfl, .inl rfl⟩,
      fun hr => absurd rfl hr⟩
  · exact ⟨fun _ => undone_of_undone hnp hrev, fun hr => absurd rfl hr⟩
  · refine ⟨fun hr => ?_, fun _ => ⟨np, ?_⟩⟩
    · have hpos := h.nextpid
      omega
    · have hne : p ≠ np := by
        rintro rfl
        exact h.live (unused_state hnp)
      have hmem : ∀ f, f ∉ s.phys.freelist → f ≠ tf ∧ phys'.mem f = s.phys.mem f := by
        intro f hf
        have hftf : f ≠ tf := by
          rintro rfl
          exact hf hprep.fresh
        refine ⟨hftf, ?_⟩
        have howner : update (inUse s.phys) tf (some tf) f = some f := by
          rw [update_of_ne hftf, inUse_eq_some]
          exact ⟨rfl, hf⟩
        rw [hfill.keeps.outer.mem f (.inl ⟨f, howner⟩), hprep.mem f hf]
      have hself : ((s.allocated np root tf phys').inherited p np src tf cwd).proc np =
          ((s.proc np).allocated s.nextpid root tf s.forkret).inherited (s.proc p) p := by
        show update _ np _ np = _
        rw [update_self, allocated_self, allocated_of_ne hne]
      refine ⟨unused_state hnp, fun q hq => ?_, fun f hf => ?_, by rw [hself]; rfl, by rw [hself]; rfl,
        by rw [hself]; rfl, by rw [hself]; rfl, by rw [hself]; rfl,
        ⟨src, tf, h.trapframe, by rw [hself]; rfl, fun i hi => ?_⟩, by rw [hself]; rfl, fun f => ?_, by rw [hself]; rfl,
        fun ip => ?_⟩
      · show update _ np _ q = _
        rw [update_of_ne hq, allocated_of_ne hq]
      · exact (mem_copyRegisters (hmem f hf).1).trans (hmem f hf).2
      · have hsrc := (hmem src h.registers).2
        rw [← pte_congr hsrc]
        exact pte_copyRegisters hi
      · show s.fileRef f + (opens ((s.allocated np root tf phys').proc p).ofile nofile f : Int) = _
        rw [allocated_of_ne hne, opens_all]
      · show update s.inodeRef cwd (s.inodeRef cwd + 1) ip = _
        rw [h.cwd]
        by_cases hip : ip = cwd
        · rw [hip, update_self, if_pos rfl]
        · rw [update_of_ne hip, if_neg fun hc => hip (Option.some.inj hc).symm, Int.add_zero]

/-! ## A process alone -/

/-- A slot after `procinit()`. -/
def unusedSlot : Proc where
  state := .unused
  chan := .null
  killed := false
  xstate := 0
  pid := 0
  priority := priorityDefault
  waitTicks := 0
  parent := none
  kstack := 0
  sz := 0
  pagetable := none
  trapframe := none
  context _ := 0
  ofile _ := none
  cwd := none
  name _ := 0

/-- A process with page table `0` and trapframe `7`. -/
def caller : Proc :=
  { unusedSlot with state := .running, pid := 1, pagetable := some 0, trapframe := some 7, cwd := some 0 }

/-- Process `q`, and `spare` in the other slots. -/
def alone (phys : Phys) (q spare : Proc) : State where
  phys := phys
  proc := update (fun _ => spare) 0 q
  nextpid := 2
  fileRef _ := 1
  inodeRef _ := 1
  trampoline := 8
  forkret := 0

theorem alone_ready {q spare : Proc} (hheap : Heap phys)
    (hq : q.state ≠ .unused ∧ q.pagetable = some root ∧ q.trapframe = some tf ∧ q.cwd = some 0 ∧ q.sz ≤ Vm.trapframe ∧
      priorityValid q.priority)
    (htable : ∀ path f, tables phys.mem root path = some f → f ∉ phys.freelist)
    (hpage : ∀ va < maxva, ∀ w, leaf phys.mem root va = some w → pteFrame w ∉ phys.freelist) (htf : tf ∉ phys.freelist)
    (hspare : spare.pagetable = none ∧ spare.sz = 0 ∧ ∀ i, spare.ofile i = none) :
    Ready (alone phys q spare) 0 root tf 0 := by
  obtain ⟨hlive, hroot, hregs, hcwd, hsz, hprio⟩ := hq
  have hself : (alone phys q spare).proc 0 = q := by
    show update (fun _ : Slot => spare) 0 q 0 = q
    rw [update_self]
  refine ⟨hheap, ?_, ?_, ?_, ?_, htable, hpage, htf, ?_, ?_, fun _ _ _ => Int.le_refl 1,
    (by decide : (0 : Int) < 2), fun r hr => ?_⟩
  iterate 6 rwa [hself]
  have hne : r ≠ 0 := by
    rintro rfl
    rw [hself] at hr
    exact hlive hr
  show (update (fun _ : Slot => spare) 0 q r).pagetable = none ∧ (update (fun _ : Slot => spare) 0 q r).sz = 0 ∧
    ∀ i, (update (fun _ : Slot => spare) 0 q r).ofile i = none
  rwa [update_of_ne hne]

/-- Memory of zeros, with twelve free pages. -/
def roomy : Phys := { blank with freelist := [1, 2, 3, 4, 5, 6, 9, 10, 11, 12, 13, 14] }

/-- Page table `7` has a page at address 0. -/
def paged : Phys := final (uvmalloc 7 0#64 4096#64 pteW) roomy

/-- A process with that page and an open file. -/
def busy : Proc :=
  { caller with
    sz := 4096#64, pagetable := some 7, trapframe := some 15, ofile := fun i => if i.val = 0 then some 3 else none }

/-- The process is alone; the definition is irreducible, so that nothing but the kernel runs a call from this state. -/
@[irreducible] def busyState : State := alone paged busy unusedSlot

theorem busyState_ready : Ready busyState 0 7 15 0 := by
  unfold busyState
  have hsmall : ∀ f ∈ roomy.freelist, 0 < f.toNat ∧ f.toNat < 2 ^ 10 := by simp [roomy]
  have hfresh : Fresh roomy 7 := ⟨blank_empty 7, by decide, blank_inPool (by decide)⟩
  have hspace := hfresh.space ⟨by decide, fun f hf => blank_inPool (hsmall f hf)⟩ (Nat.le_refl (2 ^ 26))
  have hperm : (pteR ||| pteU ||| pteW).toNat < 2 ^ 10 := by decide
  have hgrown := uvmalloc_spec (R := fun _ => False) hperm hspace (show 0#64 ≤ 4096#64 by decide) (by decide)
    (.inl (by decide))
    fun v _ _ _ => leaf_of_empty (blank_empty 7)
  obtain ⟨r, hr⟩ := hgrown.final
  rcases hr with ⟨-, -, hfill, -⟩ | ⟨-, -, hshort⟩
  · have ht := hfill.space
    refine alone_ready ⟨ht.tree.nodup, ht.sound.free⟩ (by decide) (fun path f hp => ht.tree.not_free hp)
      (fun va hva w hw => ht.not_free (v := vpn va) ?_) (by decide +kernel) ⟨rfl, rfl, fun _ => rfl⟩
    rw [leafFrames_of_lt (vpn_lt hva), leaf_vaOf hva, hw, Option.map_some]
  · exact absurd hshort (by decide)

/-- The call returns the pid of the child, and the file is open twice. -/
theorem kfork_all_or_nothing_busy : Ready busyState 0 7 15 0 ∧
    Runs (fun _ => False) (kfork 0) busyState fun r t =>
      (r = 2 ∧ t.fileRef 3 = 2) ∧ ∃ np, Forked busyState t 0 np r := by
  have hrun : Runs (fun _ => False) (kfork 0) busyState fun r t => r = 2 ∧ t.fileRef 3 = 2 := by decide +kernel
  refine ⟨busyState_ready, ?_⟩
  refine (hrun.both (kfork_all_or_nothing busyState_ready)).mono fun r t ⟨hr, _, hforked⟩ => ⟨hr, hforked ?_⟩
  rw [hr.1]
  decide

/-- No page is free, and the free slots are as `kill(0)` leaves them. -/
def exhausted : State := alone { blank with freelist := [] } caller { unusedSlot with killed := true }

/-- A call without memory resets the first free slot. -/
theorem kfork_resets_a_free_slot :
    Ready exhausted 0 0 7 0 ∧
      Runs (fun _ => False) (kfork 0) exhausted fun r t => r = -1 ∧ t.proc 1 ≠ exhausted.proc 1 := by
  refine ⟨alone_ready ⟨List.nodup_nil, fun f hf => absurd hf List.not_mem_nil⟩ (by decide) (fun _ _ _ =>
    List.not_mem_nil)
    (fun _ _ _ _ => List.not_mem_nil) List.not_mem_nil ⟨rfl, rfl, fun _ => rfl⟩, ?_⟩
  have hrun : Runs (fun _ => False) (kfork 0) exhausted fun r t => r = -1 ∧ (t.proc 1).killed = false := by decide
  refine hrun.mono fun r t ht => ⟨ht.1, fun heq => ?_⟩
  have hkilled := ht.2
  rw [heq] at hkilled
  cases hkilled

end

end Xv6.Kern
