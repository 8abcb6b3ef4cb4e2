import Xv6.Exec.Stack

/-!
# A process gets a new image

* `Current s p old tf ext` : what the caller of `kexec()` has;
* `program c` : the entry, the size and the memory that the file `c` describes; `Fits strs` : the arguments fit into the
  stack;
* `argImage` : the memory with the stack and the arguments;
* `execInode_spec` : with memory enough the process has this image; if not, or if there is none, nothing has changed
  (`Outcome`).
-/

namespace Xv6.Exec
open Vm Fs Kern Bytes Hoare Alloc Function

/-! ## Programs -/

/-- The header of a program. -/
def Contents.elf (c : Contents) : Option Elfhdr :=
  if elfhdrSize ≤ c.size then
    if (Elfhdr.ofBytes (c.slice 0 elfhdrSize)).magic = elfMagic then some (.ofBytes (c.slice 0 elfhdrSize)) else none
  else none

structure Program where
  entry : BitVec 64
  sz : BitVec 64
  mem : Cells

def program (c : Contents) : Option Program :=
  c.elf.bind fun elf => (load c elf.phnum (elf.phoff.setWidth 32) 0 fun _ => none).map fun r => ⟨elf.entry, r.1, r.2⟩

/-- The strings and the pointers to them take one page at most. -/
def Fits (strs : List (Nat → UInt8)) : Prop := room strs + vectorRoom strs ≤ 4096

instance (strs : List (Nat → UInt8)) : Decidable (Fits strs) := inferInstanceAs (Decidable (_ ≤ _))

/-- The guard page and the stack above `n` pages. -/
def withStack (m : Cells) (n : Nat) : Cells := (m.alloc n (n + 2) (pteR ||| pteU ||| pteW)).guard n

/-- The first address above the stack. -/
def stackTop (n : Nat) : Nat := (n + 2) * 4096

/-- The stack pointer of the new program. -/
def argSp (n : Nat) (strs : List (Nat → UInt8)) : Nat := stackTop n - room strs - vectorRoom strs

/-- The array of the pointers. -/
def argVector (n : Nat) (strs : List (Nat → UInt8)) : List (BitVec 64) :=
  (pointers (stackTop n) strs).map (BitVec.ofNat 64) ++ [0]

def argImage (m : Cells) (n : Nat) (strs : List (Nat → UInt8)) : Cells :=
  (pushed (withStack m n) (stackTop n) strs).write (argSp n strs) (8 * (strs.length + 1)) (wordBytes (argVector n strs))

/-! ## The caller -/

structure Current {P : Type} (s : Kern.State) (p : Slot) (old tf : Vm.Frame) (ext : P → Option Vm.Frame) : Prop where
  pagetable : (s.proc p).pagetable = some old
  trapframe : (s.proc p).trapframe = some tf
  image : Image s.phys old (s.proc p).sz ext
  low : Low s.phys.mem old
  registers : ∃ q, ext q = some tf
  trampoline : ∃ q, ext q = some s.trampoline
  kend : 0 < s.phys.kend

/-- The strings of `argv`. -/
structure Args (s : Phys) (argv : List Vm.Frame) : Prop where
  count : argv.length < maxarg
  used : ∀ f ∈ argv, f ∉ s.freelist
  size : ∀ f ∈ argv, strSize (s.mem f) ≤ 4096

/-- The registers of the trapframe for the new program. -/
def setRegisters (s : Phys) (tf : Vm.Frame) (sp entry : BitVec 64) : Phys :=
  { s with mem := ((s.mem.setPte tf regA1 sp).setPte tf regEpc entry).setPte tf regSp sp }

/-- The slot of a process that runs another program. -/
def replacedProc (q : Kern.Proc) (path : List UInt8) (root : Vm.Frame) (sz : BitVec 64) : Kern.Proc :=
  { q with name := safestrcpy q.name (fun i => (lastElement path).getD i 0) 16, pagetable := root, sz := sz }

def replaced (s : Kern.State) (p : Slot) (path : List UInt8) (root : Vm.Frame) (sz : BitVec 64) (phys : Phys) :
    Kern.State :=
  { s with phys := phys, proc := update s.proc p (replacedProc (s.proc p) path root sz) }

section
variable {P : Type} [DecidableEq P] {R : Panic → Prop} {s : State} {phys : Phys} {p : Slot} {old tf root : Vm.Frame}
  {ext : P → Option Vm.Frame} {top : Nat → Option (BitVec 64)} {sz : BitVec 64} {m : Cells} {sb : Superblock}

theorem deref_kern {A B : Type} {o : Option B} {b : B} {k : B → ExecM A} {Q : A → State → Prop} (ho : o = some b)
    (h : Runs R (k b) s Q) : Runs R (kern (deref o) >>= k) s Q := by
  subst ho
  refine kern_bind (P := fun b' t => b' = b ∧ t = s.kern) (.pure ⟨rfl, rfl⟩) fun b' t ht => ?_
  obtain ⟨rfl, rfl⟩ := ht
  exact h

/-- The state with another slot and another memory. -/
def State.withProc (s : State) (p : Slot) (q : Kern.Proc) (phys : Phys) : State :=
  { s with kern := { s.kern with phys := phys, proc := update s.kern.proc p q } }

theorem withProc_self (s : State) (p : Slot) (phys : Phys) : s.withProc p (s.kern.proc p) phys = s.withPhys phys := by
  rw [State.withProc, update_eq_self]
  rfl

theorem proc_withProc (s : State) (p : Slot) (q : Kern.Proc) (phys : Phys) : (s.withProc p q phys).kern.proc p = q :=
  update_self ..

section
variable {A : Type} {q : Kern.Proc} {k : Unit → ExecM A} {Q : A → State → Prop}

theorem setProc_kern {f : Kern.Proc → Kern.Proc} (h : Runs R (k ()) (s.withProc p (f q) phys) Q) :
    Runs R (kern (setProc p f) >>= k) (s.withProc p q phys) Q := by
  refine kern_bind (P := fun _ t => t = (s.withProc p (f q) phys).kern) (.of_modify ?_) fun _ t ht => ?_
  · simp only [State.withProc, update_self, update_idem]
  · subst ht
    exact h

theorem setPte_vm {at' : Vm.Frame × Fin 512} {w : BitVec 64}
    (h : Runs R (k ()) (s.withProc p q { phys with mem := phys.mem.setPte at'.1 at'.2 w }) Q) :
    Runs R (vm (setPte at' w) >>= k) (s.withProc p q phys) Q := by
  refine vm_bind (P := fun _ t => t = { phys with mem := phys.mem.setPte at'.1 at'.2 w }) (.of_modify rfl)
    fun _ t ht => ?_
  subst ht
  exact h

end

theorem inUse_used (s : Phys) (f : Vm.Frame) : (∃ q, inUse s q = some f) ↔ s.Used f := by
  rw [(inUse_exact s).used_iff, or_iff_left List.not_mem_nil]

omit [DecidableEq P] in
theorem Current.trampoline_used (h : Current s.kern p old tf ext) :
    inUse s.kern.phys s.kern.trampoline = some s.kern.trampoline := by
  obtain ⟨q, hq⟩ := h.trampoline
  exact inUse_eq_some.mpr ⟨rfl, h.image.space.not_free_ext hq⟩

omit [DecidableEq P] in
theorem Current.tf_used (h : Current s.kern p old tf ext) : inUse s.kern.phys tf = some tf := by
  obtain ⟨q, hq⟩ := h.registers
  exact inUse_eq_some.mpr ⟨rfl, h.image.space.not_free_ext hq⟩

theorem setRegisters_eq (s : Phys) (tf : Vm.Frame) (sp entry : BitVec 64) :
    ∃ x, setRegisters s tf sp entry = { s with mem := update s.mem tf x } :=
  ⟨_, by rw [setRegisters, Mem.setPte, Mem.setPte, Mem.setPte, update_idem, update_idem]⟩

theorem setRegisters_congr {s t : Phys} {f : Vm.Frame} (h : t.mem f = s.mem f) (sp entry : BitVec 64) :
    (setRegisters t tf sp entry).mem f = (setRegisters s tf sp entry).mem f := by
  rw [setRegisters, setRegisters]
  by_cases hf : f = tf
  · subst hf
    simp only [Mem.setPte, update_self, h]
  · simp only [setPte_of_ne hf, h]

omit [DecidableEq P] in
/-- The address space of the caller, with other registers. -/
theorem Current.setRegisters (h : Current s.kern p old tf ext) (sp entry : BitVec 64) :
    Space userPages (setRegisters s.kern.phys tf sp entry) old ext [] ∧
      Low (Exec.setRegisters s.kern.phys tf sp entry).mem old ∧
      ∀ va, leaf (Exec.setRegisters s.kern.phys tf sp entry).mem old va = leaf s.kern.phys.mem old va := by
  obtain ⟨x, hx⟩ := setRegisters_eq s.kern.phys tf sp entry
  obtain ⟨q, hq⟩ := h.registers
  obtain ⟨hspace, htables, -⟩ := h.image.space.writeOther (x := x) hq
  rw [hx]
  refine ⟨hspace, ?_, leaf_congr htables⟩
  rw [Low, show tables (update s.kern.phys.mem tf x) old =
    tables s.kern.phys.mem old from funext (tables_congr htables)]
  exact h.low

/-- `kexec()` from the last `copyout()` on. -/
theorem commit_spec {path : List UInt8} {sp entry : BitVec 64} {argc : Nat} (hcur : Current s.kern p old tf ext)
    (h : UserMem s.kern.phys phys root (inUse s.kern.phys) top sz m) :
    Runs R (commit p path root sz (s.kern.proc p).sz sp entry argc) (s.withPhys phys) fun r t => r = argc ∧
      ∃ phys', t = { s with kern := replaced s.kern p path root sz phys' } ∧
        UserMem (setRegisters s.kern.phys tf sp entry) phys' root ext top sz m := by
  obtain ⟨hspace, hlow, hleaf⟩ := hcur.setRegisters sp entry
  have h' := ((h.setPte hcur.tf_used regA1 sp).setPte hcur.tf_used regEpc entry).setPte hcur.tf_used regSp sp
  have hdrop := h'.dropOld (R := fun e => R (.kern (.vm e))) (inUse_used s.kern.phys) hspace hlow
    (pages_le_userPages hcur.image.size)
    fun v hv hge => (hleaf _).trans (hcur.image.top v hge hv)
  unfold commit
  rw [← withProc_self s p phys]
  refine .get_bind (deref_kern (b := tf) ?_ (setPte_vm (setProc_kern (.get_bind (deref_kern (b := old) ?_
    (setProc_kern
    (setProc_kern (setPte_vm (setPte_vm (vm_bind hdrop fun _ phys' hphys => .pure ⟨rfl, phys', rfl, hphys⟩))))))))))
  · rw [proc_withProc]
    exact hcur.trapframe
  · rw [proc_withProc]
    exact hcur.pagetable

/-! ## The stack -/

/-- The new page table goes, and nothing has changed. -/
theorem bad_table (h : UserMem s.kern.phys phys root (inUse s.kern.phys) top sz m) :
    Runs R (bad sb (some root) sz none) (s.withPhys phys) fun r t => r = -1 ∧
      ∃ phys', t = s.withPhys phys' ∧ Reverted s.kern.phys phys' := by
  unfold bad
  exact vm_bind h.free fun _ phys' hphys => .pure ⟨rfl, phys', rfl, reverted_of_freed hphys⟩

theorem ofNat_stackTop (n : Nat) : BitVec.ofNat 64 (stackTop n) = vaOf (n + 2) := rfl

theorem withStack_writable {n x : Nat} (hx : (n + 1) * 4096 ≤ x) (hlt : x < stackTop n) :
    (withStack m n).Writable x := by
  rw [stackTop] at hlt
  rw [Cells.Writable, withStack, Cells.guard, if_neg (by omega), Cells.alloc, if_pos (by omega)]
  exact ⟨_, rfl, by decide, by decide⟩

/-- The caller runs the program `prog`, with the strings `strs`. -/
def Became (s : Kern.State) (p : Slot) (tf : Vm.Frame) (ext : P → Option Vm.Frame) (path : List UInt8)
    (strs : List (Nat → UInt8)) (prog : Program) (t : Kern.State) : Prop :=
  ∃ root phys, t = replaced s p path root (vaOf (pages prog.sz + 2)) phys ∧
    stackTop (pages prog.sz) ≤ userPages * 4096 ∧
    UserMem (setRegisters s.phys tf (BitVec.ofNat 64 (argSp (pages prog.sz) strs)) prog.entry) phys root ext
      (topPages s.trampoline tf) (vaOf (pages prog.sz + 2)) (argImage prog.mem (pages prog.sz) strs)

/-- **The stack is built** and the image is replaced, or the new page table is gone. -/
theorem buildStack_spec {path : List UInt8} {argv : List Vm.Frame} (prog : Program) (hcur : Current s.kern p old tf ext)
    (hargs : Args s.kern.phys argv)
    (h : UserMem s.kern.phys phys root (inUse s.kern.phys) (topPages s.kern.trampoline tf) prog.sz prog.mem) :
    Runs R (buildStack sb p path argv root prog.sz prog.entry) (s.withPhys phys) fun r t => t.fs = s.fs ∧
      ((r = -1 ∧ (∃ phys', t.kern = { s.kern with phys := phys' } ∧ Reverted s.kern.phys phys') ∧
          (Fits (argv.map s.kern.phys.mem) → phys.freelist.length < 6)) ∨
        (r = argv.length ∧ Fits (argv.map s.kern.phys.mem) ∧
          Became s.kern p tf ext path (argv.map s.kern.phys.mem) prog t.kern)) := by
  obtain ⟨n, hn⟩ : ∃ n, n = pages prog.sz := ⟨_, rfl⟩
  have hle : n ≤ userPages := hn ▸ pages_le h.size
  have hle26 : n + 2 ≤ 2 ^ 26 := by
    rw [userPages] at hle
    omega
  have htop : TopKernel (topPages s.kern.trampoline tf) (inUse s.kern.phys) :=
    topKernel_topPages ⟨_, hcur.trampoline_used⟩ ⟨_, hcur.tf_used⟩
  have hup : pgroundup prog.sz = vaOf n := by
    rw [hn]
    refine pgroundup_eq (h.size.trans ?_)
    decide
  have hnew : vaOf n + 8192#64 = vaOf (n + 2) := vaOf_add (k := 2)
  have hback : vaOf (n + 2) - 8192#64 = vaOf n := by rw [← hnew, BitVec.add_sub_cancel]
  have hbase : vaOf (n + 2) - 4096#64 = vaOf (n + 1) := by rw [← vaOf_succ (v := n + 1), BitVec.add_sub_cancel]
  have h' : UserMem s.kern.phys phys root (inUse s.kern.phys) (topPages s.kern.trampoline tf) (vaOf n) prog.mem := by
    refine h.resize ?_ ?_
    · rw [toNat_vaOf (by omega)]
      omega
    · rw [pages_vaOf (by omega), hn]
  -- all exits that fail
  have hbad : ∀ {phys' sz' m'},
      UserMem s.kern.phys phys' root (inUse s.kern.phys) (topPages s.kern.trampoline tf) sz' m' →
      (Fits (argv.map s.kern.phys.mem) → phys.freelist.length < 6) →
      Runs R (bad sb (some root) sz' none) (s.withPhys phys') fun r t => t.fs = s.fs ∧
        ((r = -1 ∧ (∃ phys', t.kern = { s.kern with phys := phys' } ∧ Reverted s.kern.phys phys') ∧
            (Fits (argv.map s.kern.phys.mem) → phys.freelist.length < 6)) ∨
          (r = argv.length ∧ Fits (argv.map s.kern.phys.mem) ∧
            Became s.kern p tf ext path (argv.map s.kern.phys.mem) prog t.kern)) := by
    intro phys' sz' m' hmem hshort
    refine (bad_table hmem).mono fun r t ht => ?_
    obtain ⟨rfl, phys'', rfl, hrev⟩ := ht
    exact ⟨rfl, .inl ⟨rfl, ⟨phys'', rfl, hrev⟩, hshort⟩⟩
  unfold buildStack
  refine .get_bind ?_
  dsimp only
  rw [hup, hnew]
  refine vm_bind (h'.uvmalloc pteW (by decide) (vaOf (n + 2))) fun sz1 phys1 hsz1 => ?_
  rw [withPhys_withPhys, pages_vaOf hle26, pages_vaOf (by omega)] at *
  have hnlt : ¬ vaOf (n + 2) < vaOf n := by
    rw [BitVec.lt_def, toNat_vaOf hle26, toNat_vaOf (by omega)]
    omega
  rw [if_neg hnlt] at hsz1
  rcases hsz1 with ⟨rfl, h1, -⟩ | ⟨rfl, h1, hlen⟩
  · have hne : vaOf (n + 2) ≠ 0 := by
      intro hc
      have hzero := congrArg BitVec.toNat hc
      rw [toNat_vaOf hle26] at hzero
      change (n + 2) * 4096 = 0 at hzero
      omega
    have hsize : stackTop n ≤ userPages * 4096 := by
      rw [stackTop, ← toNat_vaOf hle26]
      exact h1.size
    rw [if_neg hne, hback]
    refine vm_bind (h1.uvmclear (by rw [pages_vaOf hle26]; omega)) fun _ phys2 h2 => ?_
    rw [withPhys_withPhys, hbase, ← ofNat_stackTop]
    rw [← ofNat_stackTop] at h2
    have hstack : Stack s.kern.phys phys2 root (inUse s.kern.phys) (topPages s.kern.trampoline tf)
        ((n + 1) * 4096) (stackTop n) (withStack prog.mem n) :=
      ⟨h2, h2.table htop hcur.kend, by omega, hsize, fun x hx hlt => withStack_writable hx hlt⟩
    have hstrs : ∀ f ∈ argv, (∃ q, inUse s.kern.phys q = some f) ∧ strSize (s.kern.phys.mem f) ≤ 4096 := fun f hf =>
      ⟨⟨f, inUse_eq_some.mpr ⟨rfl, hargs.used f hf⟩⟩, hargs.size f hf⟩
    refine (pushStrings_spec htop hcur.kend argv (stackTop n) [] _ phys2 hstrs (by simpa using hargs.count) hstack
      (by rw [stackTop]; omega) (Nat.le_refl _) (by rw [stackTop]; omega)).seq fun r t ht => ?_
    obtain ⟨phys3, rfl, ⟨hfit, rfl, h3⟩ | ⟨hfit, rfl, m3, h3⟩⟩ := ht
    · have hcount : ([] ++ (pointers (stackTop n) (argv.map s.kern.phys.mem)).map (BitVec.ofNat 64)).length =
          argv.length := by
        rw [List.nil_append, List.length_map, length_pointers, List.length_map]
      have hroom := room_mod (argv.map s.kern.phys.mem)
      have hvec : slot (8 * (argv.length + 1)) = vectorRoom (argv.map s.kern.phys.mem) := by
        rw [vectorRoom, List.length_map]
      dsimp only
      have hpush := pushPointers_spec (R := R) (s := s) (stackTop n - room (argv.map s.kern.phys.mem)) htop hcur.kend
        (hcount ▸ hargs.count) h3 (Nat.le_sub_of_add_le hfit) (Nat.sub_le ..) (by rw [stackTop]; omega)
      rw [hcount, hvec] at hpush
      refine hpush.seq fun r t ht => ?_
      obtain ⟨phys4, rfl, ⟨hfit', rfl, h4⟩ | ⟨hfit', rfl, m4, h4⟩⟩ := ht
      · dsimp only
        rw [hcount]
        refine (commit_spec hcur h4.mem).mono fun r t ht => ?_
        obtain ⟨rfl, phys5, rfl, h5⟩ := ht
        refine ⟨rfl, .inr ⟨rfl, ?_, root, phys5, ?_, hn ▸ hsize, ?_⟩⟩
        · rw [Fits]
          rw [stackTop] at hfit hfit'
          omega
        · rw [← hn, ← ofNat_stackTop]
        · rw [← hn, ← ofNat_stackTop, argImage, argVector, List.length_map]
          exact h5
      · refine hbad h4 fun hall => absurd hall ?_
        rw [Fits]
        rw [stackTop] at hfit hfit'
        omega
    · refine hbad h3 fun hall => absurd hall ?_
      rw [Fits]
      rw [stackTop] at hfit
      omega
  · rw [if_pos rfl]
    exact hbad h1 fun _ => by omega

/-! ## The whole call -/

/-- The inode is given back and the transaction ends. -/
def Closes (R : FsPanic → Prop) (sb : Superblock) (ip : Ip) (fs : FsState) (Q : FsState → Prop) : Prop :=
  Runs R (iunlockput sb ip) fs fun _ fs' => Runs R endOp fs' fun _ fs'' => Q fs''

theorem close_bind {A : Type} {ip : Ip} {Qfs : FsState → Prop} {k : Unit → ExecM A} {Q : A → State → Prop}
    (hclose : Closes (fun e => R (.fs e)) sb ip s.fs Qfs) (hk : ∀ fs, Qfs fs → Runs R (k ()) { s with fs := fs } Q) :
    Runs R (file (iunlockput sb ip) >>= fun _ => file endOp >>= k) s Q :=
  file_bind hclose fun _ _ hend => file_bind hend fun _ fs hfs => hk fs hfs

/-- How `kexec()` of the file `c` ends. -/
def Outcome (s : Kern.State) (p : Slot) (tf : Vm.Frame) (ext : P → Option Vm.Frame) (path : List UInt8)
    (strs : List (Nat → UInt8)) (c : Contents) (r : Int) (t : Kern.State) : Prop :=
  (r = -1 ∧ (∃ phys, t = { s with phys := phys } ∧ Reverted s.phys phys) ∧
      ∀ prog, program c = some prog → Fits strs → s.phys.freelist.length < 11 + 3 * pages prog.sz) ∨
    (r = strs.length ∧ Fits strs ∧ ∃ prog, program c = some prog ∧ Became s p tf ext path strs prog t)

omit [DecidableEq P] in
theorem Current.heap (h : Current s.kern p old tf ext) :
    Heap s.kern.phys := ⟨h.image.space.tree.nodup, h.image.space.sound.free⟩

/-- **`kexec()` of a file that can be read.** -/
theorem execInode_spec {ip : Ip} {c : Contents} {path : List UInt8} {argv : List Vm.Frame} {Q : FsState → Prop}
    (hcur : Current s.kern p old tf ext) (hargs : Args s.kern.phys argv) (hin : Reads sb ip c s.fs)
    (hclose : Closes (fun e => R (.fs e)) sb ip s.fs Q) :
    Runs R (execInode sb p path argv ip) s fun r t => Q t.fs ∧
      Outcome s.kern p tf ext path (argv.map s.kern.phys.mem) c r t.kern := by
  -- the exits before there is a page table
  have hbad : ∀ {phys}, Reverted s.kern.phys phys →
      (∀ prog, program c = some prog → s.kern.phys.freelist.length < 11 + 3 * pages prog.sz) →
      Runs R (bad sb none 0 (some ip)) (s.withPhys phys) fun r t => Q t.fs ∧
        Outcome s.kern p tf ext path (argv.map s.kern.phys.mem) c r t.kern := by
    intro phys hrev hshort
    unfold bad
    exact close_bind (s := s.withPhys phys) hclose fun fs hfs =>
      Runs.pure ⟨hfs, .inl ⟨rfl, ⟨phys, rfl, hrev⟩, fun prog hprog _ => hshort prog hprog⟩⟩
  have hstop : program c = none → Runs R (bad sb none 0 (some ip)) s fun r t => Q t.fs ∧
      Outcome s.kern p tf ext path (argv.map s.kern.phys.mem) c r t.kern := fun hnone =>
    hbad (.refl hcur.heap) fun prog hprog => absurd (hnone.symm.trans hprog) (Option.some_ne_none prog).symm
  unfold execInode
  refine (readStruct_spec hin (by decide) (by decide) (by decide)).seq fun r t ht => ?_
  obtain ⟨ht, rfl⟩ := ht
  rw [ht, Nat.zero_add]
  by_cases hhdr : elfhdrSize ≤ c.size
  · rw [if_pos hhdr]
    dsimp only
    refine .ite (fun hmagic => hstop ?_) fun hmagic => ?_
    · rw [program, Contents.elf, if_pos hhdr, if_neg hmagic, Option.bind_none]
    have helf : c.elf = some (.ofBytes (c.slice 0 elfhdrSize)) := by
      rw [Contents.elf, if_pos hhdr, if_pos (not_not.mp hmagic)]
    generalize Elfhdr.ofBytes (c.slice 0 elfhdrSize) = elf at helf ⊢
    have hprogram : program c =
        (load c elf.phnum (elf.phoff.setWidth 32) 0 fun _ => none).map fun r => ⟨elf.entry, r.1, r.2⟩ := by
      rw [program, helf, Option.bind_some]
    refine .get_bind (deref_kern hcur.trapframe (.get_bind ?_))
    refine vm_bind (procPagetable_spec (inUse_exact s.kern.phys) hcur.heap) fun a phys ha => ?_
    rcases ha with ⟨rfl, hfreed, hlen⟩ | ⟨root, rfl, hmade, hlen⟩
    · exact hbad (reverted_of_freed hfreed) fun prog _ => by omega
    · dsimp only
      have h0 := UserMem.of_made hmade fun v hv => topPages_user hv
      refine (loadLoop_spec hin hcur.kend elf.phnum _ 0 _ phys h0 fun a _ hlt => absurd hlt (Nat.not_lt_zero _)).seq
        fun r t ht => ?_
      obtain ⟨phys1, rfl, ⟨hok, m, hload, h1, -, hlen1⟩ | ⟨hok, ⟨m, h1⟩, hshort⟩⟩ := ht
      · have hprog : program c = some ⟨elf.entry, r.2, m⟩ := by rw [hprogram, hload, Option.map_some]
        rw [if_pos hok]
        refine close_bind (s := s.withPhys phys1) hclose fun fs hfs => ?_
        refine (buildStack_spec (s := { s with fs := fs }) ⟨elf.entry, r.2, m⟩ hcur hargs h1).mono fun r' t ht => ?_
        obtain ⟨hfs', hcase⟩ := ht
        refine ⟨hfs' ▸ hfs, hcase.imp ?_ ?_⟩
        · rintro ⟨hr, hrev, hshort⟩
          refine ⟨hr, hrev, fun prog hprog' hfits => ?_⟩
          obtain rfl : _ = prog := Option.some.inj (hprog.symm.trans hprog')
          have hlen2 := hshort hfits
          dsimp only
          omega
        · rintro ⟨hr, hfits, hbecame⟩
          exact ⟨by rw [hr, List.length_map], hfits, _, hprog, hbecame⟩
      · rw [if_neg (by rw [hok]; decide)]
        unfold bad
        refine vm_bind h1.free fun _ phys2 hfreed => ?_
        refine close_bind (s := s.withPhys phys2) hclose fun fs hfs =>
          Runs.pure ⟨hfs, .inl ⟨rfl, ⟨phys2, rfl, reverted_of_freed hfreed⟩, fun prog hprog _ => ?_⟩⟩
        rw [hprogram, Option.map_eq_some_iff] at hprog
        obtain ⟨⟨szf, mf⟩, hload, rfl⟩ := hprog
        have hlen1 := hshort szf mf hload
        dsimp only
        omega
  · rw [if_neg hhdr]
    refine hstop ?_
    rw [program, Contents.elf, if_neg hhdr, Option.bind_none]

end

end Xv6.Exec
