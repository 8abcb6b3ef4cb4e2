import Xv6.Exec.Arguments

/-!
# What a program finds in its memory

* `Contents.Segment c elf i ph` : the loadable segments of a file, at the offsets that its header says; `Ordered` : they
  lie one after the other, in pages of their own; `Short` : the offsets fit into 32 bits;
* `SegmentAt s root c ph` : the memory of a page table holds the segment;
* `load_segments` : what the loop over the headers has loaded;
* `exec_loads_segments` : a successful `kexec()` has loaded exactly the file.
-/

namespace Xv6.Exec
open Vm Fs Kern Bytes Hoare Alloc Function

/-! ## Files -/

structure Contents.Segment (c : Contents) (elf : Elfhdr) (i : Nat) (ph : Proghdr) : Prop where
  index : i < elf.phnum
  header : c.proghdr (elf.phoff.toNat + 56 * i) = some ph
  type : ph.type = elfProgLoad

structure Ordered (c : Contents) (elf : Elfhdr) : Prop where
  disjoint : ∀ i j ph ph', i < j → c.Segment elf i ph → c.Segment elf j ph' → pages ph.stop * 4096 ≤ ph'.vaddr.toNat

structure Short (c : Contents) (elf : Elfhdr) : Prop where
  phoff : elf.phoff.toNat < 2 ^ 32
  off : ∀ i ph, c.Segment elf i ph → ph.off.toNat < 2 ^ 32

/-! ## Memory -/

/-- The segment `ph` in a map of the memory. -/
structure Placed (m : Cells) (c : Contents) (ph : Proghdr) : Prop where
  inFile : ph.filesz.toNat = 0 ∨ ph.off.toNat + ph.filesz.toNat ≤ c.size
  le : ph.filesz.toNat ≤ ph.memsz.toNat
  cell : ∀ k < ph.memsz.toNat, m (ph.vaddr.toNat + k) =
    some (ph.perm ||| pteV, if k < ph.filesz.toNat then c.byte (ph.off.toNat + k) else 0)

structure SegmentAt (s : Phys) (root : Vm.Frame) (c : Contents) (ph : Proghdr) : Prop where
  inFile : ph.filesz.toNat = 0 ∨ ph.off.toNat + ph.filesz.toNat ≤ c.size
  le : ph.filesz.toNat ≤ ph.memsz.toNat
  page : ∀ k < ph.memsz.toNat, ∃ w, leaf s.mem root (BitVec.ofNat 64 (ph.vaddr.toNat + k)) = some w ∧ w &&& pteU ≠ 0 ∧
    (w &&& pteW ≠ 0 ↔ ph.flags &&& 2#32 ≠ 0) ∧ (w &&& pteX ≠ 0 ↔ ph.flags &&& 1#32 ≠ 0) ∧
    s.mem (pteFrame w) ((ph.vaddr.toNat + k) % 4096) = if k < ph.filesz.toNat then c.byte (ph.off.toNat + k) else 0

section
variable {c : Contents} {ph : Proghdr} {sz szf : BitVec 64} {m mf : Cells} {off : BitVec 32} {k : Nat}

theorem perm_iff (ph : Proghdr) : ((ph.perm ||| pteV) &&& pteW ≠ 0 ↔ ph.flags &&& 2#32 ≠ 0) ∧
    ((ph.perm ||| pteV) &&& pteX ≠ 0 ↔ ph.flags &&& 1#32 ≠ 0) := by
  rw [Proghdr.perm, flags2perm]
  by_cases hx : ph.flags &&& 1#32 ≠ 0
  · by_cases hw : ph.flags &&& 2#32 ≠ 0
    · rw [if_pos hx, if_pos hw]
      exact ⟨iff_of_true (by decide) hw, iff_of_true (by decide) hx⟩
    · rw [if_pos hx, if_neg hw]
      exact ⟨iff_of_false (by decide) hw, iff_of_true (by decide) hx⟩
  · by_cases hw : ph.flags &&& 2#32 ≠ 0
    · rw [if_neg hx, if_pos hw]
      exact ⟨iff_of_true (by decide) hw, iff_of_false (by decide) hx⟩
    · rw [if_neg hx, if_neg hw]
      exact ⟨iff_of_false (by decide) hw, iff_of_false (by decide) hx⟩

/-- The fields of a segment whose offset and size fit into 32 bits are the arguments of `loadseg()`. -/
theorem Proghdr.exact (hoff : ph.off.toNat < 2 ^ 32) (hsize : ph.filesz.toNat < 2 ^ 32) :
    ph.offset = ph.off.toNat ∧ ph.count = ph.filesz.toNat := by
  rw [offset, count, BitVec.toNat_setWidth, BitVec.toNat_setWidth, Nat.mod_eq_of_lt hoff, Nat.mod_eq_of_lt hsize]
  exact ⟨rfl, rfl⟩

/-- A segment above the memory so far is there when it has been loaded. -/
theorem Proghdr.Accepted.placed (h : ph.Accepted c sz) (hoff : ph.off.toNat < 2 ^ 32)
    (hsize : (ph.grow sz).toNat < 2 ^ 32) (hlow : pages sz * 4096 ≤ ph.vaddr.toNat) : Placed (ph.put c sz m) c ph := by
  obtain ⟨hmem, hwrap, halign, -, hfile⟩ := h
  obtain ⟨hva, hstop⟩ := ph.range hwrap halign
  have hgrow := BitVec.le_def.mp (ph.le_grow sz).2
  have hle : ph.filesz.toNat ≤ ph.memsz.toNat := Nat.le_of_not_lt fun hc => hmem (BitVec.lt_def.mpr hc)
  obtain ⟨hoffset, hcount⟩ := ph.exact hoff (by omega)
  rw [InFile, hoffset, hcount] at hfile
  refine ⟨hfile, hle, fun k hk => ?_⟩
  have hpage : pages sz ≤ (ph.vaddr.toNat + k) / 4096 ∧ (ph.vaddr.toNat + k) / 4096 < pages ph.stop := by
    rw [pages] at hlow
    rw [pages, pages]
    omega
  rw [put, hoffset, hcount, Cells.write, Cells.alloc, if_pos hpage]
  by_cases hlt : k < ph.filesz.toNat
  · rw [if_pos (by omega), if_pos hlt, Option.map_some, Nat.add_sub_cancel_left]
  · rw [if_neg (by omega), if_neg hlt]

theorem Proghdr.put_of_lt (hlow : pages sz * 4096 ≤ ph.vaddr.toNat) {a : Nat} (ha : a / 4096 < pages sz) :
    ph.put c sz m a = m a := by
  rw [put, Cells.write, if_neg (by omega), Cells.alloc, if_neg (by omega)]

/-- What the next `k` headers, at `off`, describe. -/
structure Described (c : Contents) (k : Nat) (off : BitVec 32) (sz : BitVec 64) : Prop where
  low : ∀ j < k, ∀ ph, c.proghdr (off.toNat + 56 * j) = some ph → ph.type = elfProgLoad →
    pages sz * 4096 ≤ ph.vaddr.toNat
  disjoint : ∀ i j, i < j → j < k → ∀ ph ph', c.proghdr (off.toNat + 56 * i) = some ph →
    c.proghdr (off.toNat + 56 * j) = some ph' → ph.type = elfProgLoad → ph'.type = elfProgLoad →
    pages ph.stop * 4096 ≤ ph'.vaddr.toNat
  off : ∀ j < k, ∀ ph, c.proghdr (off.toNat + 56 * j) = some ph → ph.type = elfProgLoad → ph.off.toNat < 2 ^ 32

theorem proghdr_some (h : c.proghdr k = some ph) : k + 56 ≤ c.size := by
  rw [Contents.proghdr] at h
  split at h
  · assumption
  · cases h

/-- The headers behind the first one. -/
theorem Described.tail {sz' : BitVec 64} (h : Described c (k + 1) off sz)
    (hnext : ∀ j, (off + 56#32).toNat + 56 * j = off.toNat + 56 * (j + 1))
    (hlow : ∀ j < k, ∀ ph', c.proghdr (off.toNat + 56 * (j + 1)) = some ph' → ph'.type = elfProgLoad →
      pages sz' * 4096 ≤ ph'.vaddr.toNat) : Described c k (off + 56#32) sz' := by
  refine ⟨fun j hj ph' hph' => ?_, fun i j hij hj ph ph' hph hph' => ?_, fun j hj ph' hph' => ?_⟩
  · rw [hnext] at hph'
    exact hlow j hj ph' hph'
  · rw [hnext] at hph hph'
    exact h.disjoint (i + 1) (j + 1) (Nat.succ_lt_succ hij) (Nat.succ_lt_succ hj) ph ph' hph hph'
  · rw [hnext] at hph'
    exact h.off (j + 1) (Nat.succ_lt_succ hj) ph' hph'

theorem Placed.congr (h : Placed m c ph)
    (heq : ∀ k < ph.memsz.toNat, mf (ph.vaddr.toNat + k) = m (ph.vaddr.toNat + k)) : Placed mf c ph :=
  ⟨h.inFile, h.le, fun k hk => (heq k hk).trans (h.cell k hk)⟩

/-- **What the loop over the headers loads**: every header is in the file, every segment is in the memory, and what was
there before has stayed. -/
theorem load_segments (hc : c.size < 2 ^ 32) (hload : load c k off sz m = some (szf, mf)) (hsize : szf.toNat < 2 ^ 32)
    (hdesc : Described c k off sz) :
    (∀ a, a / 4096 < pages sz → mf a = m a) ∧
      ∀ j < k, ∃ ph, c.proghdr (off.toNat + 56 * j) = some ph ∧ (ph.type = elfProgLoad → Placed mf c ph ∧
        ph.stop ≤ szf ∧ ph.stop.toNat = ph.vaddr.toNat + ph.memsz.toNat) := by
  induction k generalizing off sz m with
  | zero =>
    rw [load] at hload
    cases hload
    exact ⟨fun _ _ => rfl, fun j hj => absurd hj (Nat.not_lt_zero j)⟩
  | succ k ih =>
    cases hph : c.proghdr off.toNat with
    | none =>
      rw [load, hph] at hload
      cases hload
    | some ph =>
      rw [load_succ hph] at hload
      have hin := proghdr_some hph
      -- the next header is 56 bytes further on
      have hnext : ∀ j, (off + 56#32).toNat + 56 * j = off.toNat + 56 * (j + 1) := by
        intro j
        rw [BitVec.toNat_add, BitVec.toNat_ofNat]
        omega
      by_cases htype : ph.type ≠ elfProgLoad
      · rw [if_pos htype] at hload
        obtain ⟨hkept, hrest⟩ := ih hload (hdesc.tail hnext fun j hj => hdesc.low (j + 1) (Nat.succ_lt_succ hj))
        refine ⟨hkept, fun j hj => ?_⟩
        cases j with
        | zero => exact ⟨ph, hph, fun hc => absurd hc htype⟩
        | succ j =>
          rw [← hnext]
          exact hrest j (Nat.lt_of_succ_lt_succ hj)
      · have hloadable := not_not.mp htype
        rw [if_neg htype] at hload
        by_cases hacc : ph.Accepted c sz
        · rw [if_pos hacc] at hload
          have hlow := hdesc.low 0 (Nat.succ_pos k) ph hph hloadable
          have hpages := ph.pages_grow sz
          have hgrow := BitVec.le_def.mp (load_mono hload)
          obtain ⟨hva, hstop⟩ := ph.range hacc.2.1 hacc.2.2.1
          obtain ⟨hkept, hrest⟩ := ih hload (hdesc.tail hnext fun j hj ph' hph' htype' => by
            have hsz := hdesc.low (j + 1) (Nat.succ_lt_succ hj) ph' hph' htype'
            have hend := hdesc.disjoint 0 (j + 1) (Nat.succ_pos j) (Nat.succ_lt_succ hj) ph ph' hph hph'
              hloadable htype'
            rcases Nat.le_total (pages sz) (pages ph.stop) with hle | hle
            · rw [hpages, Nat.max_eq_right hle]
              exact hend
            · rw [hpages, Nat.max_eq_left hle]
              exact hsz)
          refine ⟨fun a ha => ?_, fun j hj => ?_⟩
          · rw [hkept a (by omega), ph.put_of_lt hlow ha]
          · cases j with
            | zero =>
              have hplaced := hacc.placed (m := m) (hdesc.off 0 (Nat.succ_pos k) ph hph hloadable) (by omega) hlow
              refine ⟨ph, hph, fun _ => ⟨hplaced.congr fun i hi => hkept _ ?_, ?_, hstop⟩⟩
              · rw [hpages, pages, pages]
                omega
              · exact BitVec.le_trans (ph.le_grow sz).2 (load_mono hload)
            | succ j =>
              rw [← hnext]
              exact hrest j (Nat.lt_of_succ_lt_succ hj)
        · rw [if_neg hacc] at hload
          cases hload

end

/-! ## The call -/

section
variable {P : Type} [DecidableEq P] {sb : Superblock} {s : State} {s0 phys : Phys} {p : Slot} {old tf root : Vm.Frame}
  {ext : P → Option Vm.Frame} {top : Nat → Option (BitVec 64)} {sz : BitVec 64} {m : Cells} {c : Contents}
  {ph : Proghdr}

omit [DecidableEq P] in
/-- A segment in the map is a segment in the memory. -/
theorem Placed.segmentAt (h : Placed m c ph) (hmem : UserMem s0 phys root ext top sz m)
    (hlt : ph.vaddr.toNat + ph.memsz.toNat ≤ userPages * 4096) : SegmentAt phys root c ph := by
  refine ⟨h.inFile, h.le, fun k hk => ?_⟩
  have hx : ph.vaddr.toNat + k < userPages * 4096 := by omega
  have hcell := hmem.cells _ hx
  rw [h.cell k hk, Vm.cell, Option.map_eq_some_iff] at hcell
  obtain ⟨w, hw, heq⟩ := hcell
  obtain ⟨hflags, hbyte⟩ := Prod.mk.inj heq
  obtain ⟨hwrite, hexec⟩ := perm_iff ph
  have huser := ph.perm_user
  rw [← hflags, pteFlags_and (by decide)] at hwrite hexec huser
  exact ⟨w, hw, huser, hwrite, hexec, hbyte⟩

theorem argImage_of_lt {n x : Nat} {strs : List (Nat → UInt8)} (hfits : Fits strs) (hx : x / 4096 < n) :
    argImage m n strs x = m x := by
  obtain ⟨heq, hle⟩ := argSp_eq (n := n) hfits
  rw [argImage, Cells.write, if_neg (by omega), pushed_of_lt (by omega) (by omega), withStack, Cells.guard,
    if_neg (by omega), Cells.alloc, if_neg (by omega)]

/-- The program that the file `c` describes is in the memory of process `p`. -/
def Runnable (t : Kern.State) (p : Slot) (tf : Vm.Frame) (c : Contents) : Prop :=
  ∃ elf root, c.elf = some elf ∧ (t.proc p).pagetable = some root ∧ t.phys.mem.pte tf regEpc = elf.entry ∧
    ∀ i < elf.phnum, ∃ ph, c.proghdr (elf.phoff.toNat + 56 * i) = some ph ∧
    (ph.type = elfProgLoad → SegmentAt t.phys root c ph)

theorem program_some {prog : Program} (h : program c = some prog) : ∃ elf, c.elf = some elf ∧ prog.entry = elf.entry ∧
    load c elf.phnum (elf.phoff.setWidth 32) 0 (fun _ => none) = some (prog.sz, prog.mem) := by
  obtain ⟨elf, helf, hmap⟩ := Option.bind_eq_some_iff.mp h
  obtain ⟨r, hload, rfl⟩ := Option.map_eq_some_iff.mp hmap
  exact ⟨elf, helf, rfl, hload⟩

theorem described_of_ordered {elf : Elfhdr} (hord : Ordered c elf) (hshort : Short c elf) :
    Described c elf.phnum (elf.phoff.setWidth 32) 0 := by
  have hoff : (elf.phoff.setWidth 32).toNat = elf.phoff.toNat := by
    rw [BitVec.toNat_setWidth, Nat.mod_eq_of_lt hshort.phoff]
  refine ⟨fun j _ ph' _ _ => Nat.zero_le _, fun i j hij hj ph ph' hph hph' htype htype' => ?_,
    fun j hj ph' hph' htype => ?_⟩
  · rw [hoff] at hph hph'
    exact hord.disjoint i j ph ph' hij ⟨hij.trans hj, hph, htype⟩ ⟨hj, hph', htype'⟩
  · rw [hoff] at hph'
    exact hshort.off j ph' ⟨hj, hph', htype⟩

omit [DecidableEq P] in
/-- The new image has the segments of the file. -/
theorem Became.runnable {path : List UInt8} {strs : List (Nat → UInt8)} {prog : Program} {k : Kern.State}
    (hc : c.size < 2 ^ 32) (hcur : Current s.kern p old tf ext) (hfits : Fits strs) (hprog : program c = some prog)
    (hordered : ∀ elf, c.elf = some elf → Ordered c elf) (hshort : ∀ elf, c.elf = some elf → Short c elf)
    (h : Became s.kern p tf ext path strs prog k) : Runnable k p tf c := by
  obtain ⟨elf, helf, hentry, hload⟩ := program_some hprog
  obtain ⟨root, -, -, hroot, -, -, -, hepc, -⟩ := h.started hcur hfits
  obtain ⟨root', phys, rfl, hsize, hmem⟩ := h
  have hproc : (replaced s.kern p path root' (vaOf (pages prog.sz + 2)) phys).proc p =
      replacedProc (s.kern.proc p) path root' (vaOf (pages prog.sz + 2)) := update_self ..
  obtain rfl : root' = root := by
    rw [hproc] at hroot
    exact Option.some.inj hroot
  have hle26 : pages prog.sz + 2 ≤ 2 ^ 26 := by
    rw [stackTop, userPages] at hsize
    omega
  have hbelow : prog.sz.toNat < 2 ^ 32 := by
    have hroom := hmem.room
    rw [pages_vaOf hle26, phystop, pages] at hroom
    omega
  obtain ⟨-, hsegs⟩ := load_segments hc hload hbelow (described_of_ordered (hordered elf helf) (hshort elf helf))
  rw [BitVec.toNat_setWidth, Nat.mod_eq_of_lt (hshort elf helf).phoff] at hsegs
  refine ⟨elf, root', helf, hroot, hentry ▸ hepc, fun i hi => ?_⟩
  obtain ⟨ph, hph, hplaced⟩ := hsegs i hi
  refine ⟨ph, hph, fun htype => ?_⟩
  obtain ⟨hplaced, hle, hstop⟩ := hplaced htype
  have hpages : prog.sz.toNat ≤ pages prog.sz * 4096 := by
    rw [pages]
    omega
  rw [BitVec.le_def, hstop] at hle
  rw [stackTop] at hsize
  refine (hplaced.congr fun j hj => argImage_of_lt (n := pages prog.sz) hfits ?_).segmentAt hmem (by omega)
  rw [pages] at hpages ⊢
  omega

/-- **`kexec()` loads exactly the file**: its headers are where the file says, and its segments are in memory as they
are in the file; all of them are inside the file. -/
theorem exec_loads_segments {cwd : Ip} {path : List UInt8} {argv : List Vm.Frame} (hidle : Idle sb s.fs)
    (htree : Fs.Tree sb (sb.view s.fs.disk))
    (hstart : ∀ base, Starts sb (World.idle s.fs.ftable s.fs.cwd base 1) s.fs p cwd path) (h0 : 0 ∉ path)
    (hcur : Current s.kern p old tf ext) (hargs : Args s.kern.phys argv) (hfile : fileAt sb s.fs cwd path = some c)
    (hordered : ∀ elf, c.elf = some elf → Ordered c elf) (hshort : ∀ elf, c.elf = some elf → Short c elf) :
    Runs (InodesFull s.fs) (kexec sb p path argv) s fun r t => r ≠ -1 → Runnable t.kern p tf c := by
  have hc : c.size < 2 ^ 32 := by
    rw [fileAt, Option.map_eq_some_iff] at hfile
    obtain ⟨i, -, rfl⟩ := hfile
    exact UInt32.toNat_lt _
  refine (kexec_file hidle htree hstart h0 hcur hargs).mono fun r t ht hne => ?_
  obtain ⟨-, ⟨-, hr, -⟩ | ⟨c', hc', ⟨hr, -⟩ | ⟨hr, hfits, prog, hprog, hbecame⟩⟩⟩ := ht
  · exact absurd hr hne
  · exact absurd hr hne
  · obtain rfl : c = c' := Option.some.inj (hfile.symm.trans hc')
    exact hbecame.runnable hc hcur hfits hprog hordered hshort

/-- The program `/a` has one segment. -/
theorem sample_elf {elf : Elfhdr} (h : (contents (smallSb.view programImage) 2).elf = some elf) :
    elf.phnum = 1 ∧ elf.phoff = 64 := by
  have helf : (contents (smallSb.view programImage) 2).elf.map (fun elf => (elf.phnum, elf.phoff)) = some (1, 64) := by
    decide +kernel
  rw [h] at helf
  exact Prod.mk.inj (Option.some.inj helf)

theorem sample_proghdr (h : (contents (smallSb.view programImage) 2).proghdr 64 = some ph) : ph.off = 120 := by
  have hph : ((contents (smallSb.view programImage) 2).proghdr 64).map Proghdr.off = some 120 := by decide +kernel
  rw [h] at hph
  exact Option.some.inj hph

/-- The program `/a` is loaded. -/
theorem exec_loads_segments_sample :
    Runs (fun _ => False) (kexec smallSb 0 [47, 97] []) (sampleStart programImage) fun r t =>
      r = 0 ∧ Runnable t.kern 0 8 (contents (smallSb.view programImage) 2) := by
  obtain ⟨hfs, hcur, -⟩ := sample_current programImage
  have hargs : Args (sampleStart programImage).kern.phys [] := ⟨by decide, by simp, by simp⟩
  have hrun := exec_loads_segments (hfs ▸ idle_mount program_sound) (hfs ▸ program_tree)
    (fun base hc => absurd rfl hc) (by decide) hcur hargs (hfs ▸ sample_fileAt)
    (fun elf helf => ⟨fun i j ph ph' hij hi hj => ?_⟩) fun elf helf => ⟨?_, fun i ph hi => ?_⟩
  · refine (((sample_starts hargs (by decide)).and hrun).weaken fun _ he => he.1).mono fun r t ht => ⟨ht.1, ht.2 ?_⟩
    rw [ht.1]
    decide
  · have hlt := hj.index
    rw [(sample_elf helf).1] at hlt
    omega
  · rw [(sample_elf helf).2]
    decide
  · obtain ⟨hnum, hphoff⟩ := sample_elf helf
    have hlt := hi.index
    have hheader := hi.header
    obtain rfl : i = 0 := by omega
    rw [hphoff] at hheader
    rw [sample_proghdr hheader]
    decide

end

end Xv6.Exec
