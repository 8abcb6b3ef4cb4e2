import Xv6.Exec.Failure

/-!
# The arguments of a new program

* `ArgStack byte sz sp strs ps` : the strings `strs` are at the addresses `ps`, and the array of these addresses at
  `sp`, in the last page below `sz`, with a page below it that cannot be used;
* `argStack_argImage` : so they are in the memory that `kexec()` builds;
* `exec_argument_stack` : the caller starts with this stack and with `sp` in its registers, iff the arguments fit.
-/

namespace Xv6.Exec
open Vm Fs Kern Bytes Hoare Alloc Function

structure ArgStack (byte : Nat → Option UInt8) (sz sp : Nat) (strs : List (Nat → UInt8)) (ps : List Nat) : Prop where
  count : ps.length = strs.length
  aligned : sp % 16 = 0
  within : sz ≤ sp + 4096
  vector : ∀ k < 8 * (strs.length + 1), byte (sp + k) = some (wordBytes (ps.map (BitVec.ofNat 64) ++ [0]) k)
  string : ∀ (i : Nat) a str, ps[i]? = some a → strs[i]? = some str →
    sp + 8 * (strs.length + 1) ≤ a ∧ a + strSize str ≤ sz ∧ ∀ k < strSize str, byte (a + k) = some (str k)
  disjoint : ∀ (i j : Nat) a b str, i < j → ps[i]? = some a → ps[j]? = some b → strs[j]? = some str →
    b + strSize str ≤ a
  guard : ∀ x, sz ≤ x + 8192 → x + 4096 < sz → byte x = none

/-! ## The image -/

section
variable {m : Cells} {n x k : Nat} {strs : List (Nat → UInt8)}

/-- What a user reads at an address of the map. -/
def Cells.read (m : Cells) (x : Nat) : Option UInt8 := (m x).bind fun c => if c.1 &&& pteU ≠ 0 then some c.2 else none

theorem withStack_stack (hx : (n + 1) * 4096 ≤ x) (hlt : x < stackTop n) :
    withStack m n x = some (pteR ||| pteU ||| pteW ||| pteV, 0) := by
  rw [stackTop] at hlt
  rw [withStack, Cells.guard, if_neg (by omega), Cells.alloc, if_pos (by omega)]

theorem withStack_guard (hx : n * 4096 ≤ x) (hlt : x < (n + 1) * 4096) :
    withStack m n x = some ((pteR ||| pteU ||| pteW ||| pteV) &&& ~~~ pteU, 0) := by
  rw [withStack, Cells.guard, if_pos (by omega), Cells.alloc, if_pos (by omega), Option.map_some]

theorem read_of_flags {c : BitVec 64} {b : UInt8} (h : m x = some (c, b)) (hc : c &&& pteU ≠ 0) :
    Cells.read m x = some b := by
  rw [Cells.read, h, Option.bind_some, if_pos hc]

theorem argSp_eq (hfits : Fits strs) :
    argSp n strs + room strs + vectorRoom strs = stackTop n ∧ (n + 1) * 4096 ≤ argSp n strs := by
  rw [Fits] at hfits
  rw [argSp, stackTop]
  omega

theorem argImage_guard (hfits : Fits strs) (hx : n * 4096 ≤ x) (hlt : x < (n + 1) * 4096) :
    Cells.read (argImage m n strs) x = none := by
  obtain ⟨heq, hle⟩ := argSp_eq (n := n) hfits
  rw [Cells.read, argImage, Cells.write, if_neg (by omega), pushed_of_lt (by omega) (by omega), withStack_guard hx hlt,
    Option.bind_some, if_neg (by decide)]

theorem argImage_vector (hfits : Fits strs) (hk : k < 8 * (strs.length + 1)) :
    Cells.read (argImage m n strs) (argSp n strs + k) = some (wordBytes (argVector n strs) k) := by
  obtain ⟨heq, hle⟩ := argSp_eq (n := n) hfits
  have hslot := le_slot (8 * (strs.length + 1))
  rw [← vectorRoom] at hslot
  refine read_of_flags (c := pteR ||| pteU ||| pteW ||| pteV) ?_ (by decide)
  rw [argImage, Cells.write, if_pos (by omega), pushed_of_lt (by omega) (by omega),
    withStack_stack (by omega) (by omega), Option.map_some, Nat.add_sub_cancel_left]

theorem argImage_string {i a : Nat} {str : Nat → UInt8} (hfits : Fits strs)
    (ha : (pointers (stackTop n) strs)[i]? = some a) (hstr : strs[i]? = some str) :
    argSp n strs + 8 * (strs.length + 1) ≤ a ∧ a + strSize str ≤ stackTop n ∧
      ∀ k < strSize str, Cells.read (argImage m n strs) (a + k) = some (str k) := by
  obtain ⟨heq, hle⟩ := argSp_eq (n := n) hfits
  have hslot := le_slot (8 * (strs.length + 1))
  rw [← vectorRoom] at hslot
  have h16 : stackTop n % 16 = 0 := by
    rw [stackTop]
    omega
  obtain ⟨-, hlow, hhigh⟩ := pointer_bounds (by omega) h16 hstr ha
  refine ⟨by omega, hhigh, fun k hk => read_of_flags (c := pteR ||| pteU ||| pteW ||| pteV) ?_ (by decide)⟩
  rw [argImage, Cells.write, if_neg (by omega), pushed_string (by omega) hstr ha hk,
    withStack_stack (by omega) (by omega), Option.map_some]

theorem guard_page (hx : (n + 1) * 4096 + 4096 ≤ x + 8192) (hlt : x + 4096 < (n + 1) * 4096 + 4096) :
    n * 4096 ≤ x ∧ x < (n + 1) * 4096 := by
  omega

/-- **The arguments are in the image.** -/
theorem argStack_argImage (hfits : Fits strs) :
    ArgStack (Cells.read (argImage m n strs)) (stackTop n) (argSp n strs) strs (pointers (stackTop n) strs) := by
  obtain ⟨heq, hle⟩ := argSp_eq (n := n) hfits
  have h16 : stackTop n % 16 = 0 := by
    rw [stackTop]
    omega
  have htop : stackTop n = (n + 1) * 4096 + 4096 := by
    rw [stackTop]
    omega
  have hwithin : stackTop n ≤ argSp n strs + 4096 := by
    rw [htop]
    exact Nat.add_le_add_right hle _
  refine ⟨length_pointers .., ?_, hwithin, fun k hk => argImage_vector hfits hk, fun i a str ha hstr =>
    argImage_string hfits ha hstr, fun i j a b str hij ha hb hstr => pointers_disjoint (by omega) h16 hij ha hstr hb,
    fun x hx hlt => ?_⟩
  · have hroom := room_mod strs
    have hvec : vectorRoom strs % 16 = 0 := slot_mod _
    omega
  · rw [htop] at hx hlt
    obtain ⟨hlow, hhigh⟩ := guard_page hx hlt
    exact argImage_guard hfits hlow hhigh

end

section
variable {P : Type} [DecidableEq P] {sb : Superblock} {s : State} {s0 phys : Phys} {p : Slot} {old tf root : Vm.Frame}
  {ext : P → Option Vm.Frame} {top : Nat → Option (BitVec 64)} {sz psz : BitVec 64} {m : Cells} {x : Nat}

omit [DecidableEq P] in
/-- What a user reads in mapped memory is what the map says. -/
theorem userByte_of_cells (h : UserMem s0 phys root ext top sz m) (hx : x < userPages * 4096)
    (hpage : x / 4096 < pages sz) : userByte phys root psz (BitVec.ofNat 64 x) = Cells.read m x := by
  obtain ⟨c, hc⟩ := Option.ne_none_iff_exists'.mp ((h.mapped x hx).mpr hpage)
  have hcell := h.cells x hx
  rw [hc, cell, Option.map_eq_some_iff] at hcell
  obtain ⟨w, hw, rfl⟩ := hcell
  rw [userByte_of_leaf (user_lt_maxva hx) hw, Cells.read, hc, Option.bind_some, toNat_user hx]
  dsimp only
  rw [pteFlags_and (by decide)]

/-- The caller of `kexec()` begins another program, with `strs` as its arguments. -/
def Started (s : Kern.State) (p : Slot) (tf : Vm.Frame) (entry : BitVec 64) (strs : List (Nat → UInt8)) : Prop :=
  ∃ root sp ps, (s.proc p).pagetable = some root ∧ (s.proc p).trapframe = some tf ∧
    s.phys.mem.pte tf regA1 = BitVec.ofNat 64 sp ∧ s.phys.mem.pte tf regSp = BitVec.ofNat 64 sp ∧
    s.phys.mem.pte tf regEpc = entry ∧
    ArgStack (fun x => userByte s.phys root (s.proc p).sz (BitVec.ofNat 64 x)) (s.proc p).sz.toNat sp strs ps

omit [DecidableEq P] in
theorem setRegisters_ptes (s : Phys) (tf : Vm.Frame) (sp entry : BitVec 64) :
    (setRegisters s tf sp entry).mem.pte tf regA1 = sp ∧ (setRegisters s tf sp entry).mem.pte tf regSp = sp ∧
      (setRegisters s tf sp entry).mem.pte tf regEpc = entry := by
  rw [setRegisters]
  refine ⟨?_, pte_setPte_self, ?_⟩
  · rw [pte_setPte_ne (.inr (by decide)), pte_setPte_ne (.inr (by decide)), pte_setPte_self]
  · rw [pte_setPte_ne (.inr (by decide)), pte_setPte_self]

omit [DecidableEq P] in
theorem Became.started {path : List UInt8} {strs : List (Nat → UInt8)} {prog : Program} {k : Kern.State}
    (hcur : Current s.kern p old tf ext) (hfits : Fits strs) (h : Became s.kern p tf ext path strs prog k) :
    Started k p tf prog.entry strs := by
  obtain ⟨root, phys, rfl, hsize, hmem⟩ := h
  obtain ⟨q, hq⟩ := hcur.registers
  have htf := hmem.kept q tf hq
  obtain ⟨ha1, hsp, hepc⟩ := setRegisters_ptes s.kern.phys tf (BitVec.ofNat 64 (argSp (pages prog.sz) strs)) prog.entry
  have hproc : (replaced s.kern p path root (vaOf (pages prog.sz + 2)) phys).proc p =
      replacedProc (s.kern.proc p) path root (vaOf (pages prog.sz + 2)) := update_self ..
  have hle26 : pages prog.sz + 2 ≤ 2 ^ 26 := by
    rw [stackTop, userPages] at hsize
    omega
  have htop : (vaOf (pages prog.sz + 2)).toNat = stackTop (pages prog.sz) := toNat_vaOf hle26
  have hread : ∀ x < stackTop (pages prog.sz), userByte phys root (vaOf (pages prog.sz + 2)) (BitVec.ofNat 64 x) =
      Cells.read (argImage prog.mem (pages prog.sz) strs) x := by
    intro x hx
    refine userByte_of_cells hmem (hx.trans_le hsize) ?_
    rw [pages_vaOf hle26]
    rw [stackTop] at hx
    omega
  have hstack := argStack_argImage (m := prog.mem) (n := pages prog.sz) hfits
  refine ⟨root, argSp (pages prog.sz) strs, pointers (stackTop (pages prog.sz)) strs, ?_, ?_, ?_, ?_, ?_, ?_⟩
  · rw [hproc]
    rfl
  · rw [hproc, replacedProc]
    exact hcur.trapframe
  · exact (pte_congr htf).trans ha1
  · exact (pte_congr htf).trans hsp
  · exact (pte_congr htf).trans hepc
  · rw [hproc]
    show ArgStack (fun x => userByte phys root (vaOf (pages prog.sz + 2)) (BitVec.ofNat 64 x))
      (vaOf (pages prog.sz + 2)).toNat _ _ _
    rw [htop]
    have hvec := (argSp_eq (n := pages prog.sz) hfits).1
    have hslot := le_slot (8 * (strs.length + 1))
    rw [← vectorRoom] at hslot
    exact { hstack with
      vector := fun k hk => (hread _ (by omega)).trans (hstack.vector k hk)
      string := fun i a str ha hstr => by
        obtain ⟨hlow, hhigh, hbytes⟩ := hstack.string i a str ha hstr
        exact ⟨hlow, hhigh, fun k hk => (hread _ (by omega)).trans (hbytes k hk)⟩
      guard := fun x hx hlt => (hread x (by omega)).trans (hstack.guard x hx hlt) }

/-- **The arguments of a new program.** The call succeeds iff they fit into the page of the stack, with memory enough;
the program then finds them there. -/
theorem exec_argument_stack {cwd : Ip} {path : List UInt8} {argv : List Vm.Frame} {c : Contents} {prog : Program}
    (hidle : Idle sb s.fs) (htree : Fs.Tree sb (sb.view s.fs.disk))
    (hstart : ∀ base, Starts sb (World.idle s.fs.ftable s.fs.cwd base 1) s.fs p cwd path) (h0 : 0 ∉ path)
    (hcur : Current s.kern p old tf ext) (hargs : Args s.kern.phys argv) (hfile : fileAt sb s.fs cwd path = some c)
    (hprog : program c = some prog) :
    Runs (InodesFull s.fs) (kexec sb p path argv) s fun r t =>
      (r = -1 → ¬ Fits (argv.map s.kern.phys.mem) ∨ s.kern.phys.freelist.length < 11 + 3 * pages prog.sz) ∧
      (r ≠ -1 → r = argv.length ∧ Fits (argv.map s.kern.phys.mem) ∧
        Started t.kern p tf prog.entry (argv.map s.kern.phys.mem)) := by
  refine (kexec_file hidle htree hstart h0 hcur hargs).mono fun r t ht => ?_
  obtain ⟨-, ⟨hnone, -⟩ | ⟨c', hc', ⟨hr, -, hshort⟩ | ⟨hr, hfits, prog', hprog', hbecame⟩⟩⟩ := ht
  · rw [hfile] at hnone
    cases hnone
  · obtain rfl : c = c' := Option.some.inj (hfile.symm.trans hc')
    refine ⟨fun _ => ?_, fun hne => absurd hr hne⟩
    by_cases hfits : Fits (argv.map s.kern.phys.mem)
    · exact .inr (hshort prog hprog hfits)
    · exact .inl hfits
  · obtain rfl : c = c' := Option.some.inj (hfile.symm.trans hc')
    obtain rfl : prog = prog' := Option.some.inj (hprog.symm.trans hprog')
    rw [List.length_map] at hr
    exact ⟨fun hc => by omega, fun _ => ⟨hr, hfits, hbecame.started hcur hfits⟩⟩

/-! ## A program on a disk -/

/-- The allocation law of an image without indirect blocks, for a list of the places that have blocks. -/
theorem law_of_direct {v : View} {l : List ((Nat × Fin 13) × Nat)}
    (hbit : ∀ b, v.bit b = true ↔ b < sb.nmeta ∨ b ∈ l.map Prod.snd)
    (haddr : ∀ j < sb.ninodes, (v.ino j).type ≠ 0 → (v.ino j).addrs 12 = 0 ∧ ∀ k : Fin 13, ((v.ino j).addrs k).toNat =
      (l.lookup (j, k)).getD 0)
    (hplace : ∀ e ∈ l, v.Live sb e.1.1 ∧ sb.nmeta ≤ e.2 ∧ e.2 < sb.size ∧ l.lookup e.1 = some e.2)
    (honce : (l.map Prod.snd).Nodup) (hbelow : sb.nmeta ≤ sb.size) : Law sb v [] := by
  have hpos : 0 < sb.nmeta := sb.nmeta_pos
  have hat : ∀ (j : Nat) (k : Fin 13), v.at j k = ((v.ino j).addrs k).toNat := by
    intro j k
    rw [View.at, if_pos k.isLt, Fin.ofNat_val_eq_self]
  -- what an inode refers to is in the list
  have hown : ∀ {j p b}, v.own sb (.block j p) = some b → ∃ k : Fin 13, k.val = p ∧ ((j, k), b) ∈ l := by
    intro j p b hb
    obtain ⟨hj, hp, hjp, h0⟩ := own_block_iff.mp hb
    by_cases hlt : p < 13
    · have hval := hat j ⟨p, hlt⟩
      rw [hjp, (haddr j hj.1 hj.2).2] at hval
      cases hl : l.lookup (j, ⟨p, hlt⟩) with
      | none =>
        rw [hl, Option.getD_none] at hval
        exact absurd hval h0
      | some c =>
        rw [hl, Option.getD_some] at hval
        obtain ⟨l₁, l₂, heq, -⟩ := List.lookup_eq_some_iff.mp hl
        refine ⟨⟨p, hlt⟩, rfl, ?_⟩
        rw [hval, heq]
        exact List.mem_append_right l₁ List.mem_cons_self
    · rw [View.at, if_neg hlt, if_pos (haddr j hj.1 hj.2).1] at hjp
      exact absurd hjp.symm h0
  refine ⟨⟨fun b => ?_, fun {p q b} hp hq => ?_, fun _ => List.not_mem_nil, List.nodup_nil⟩, fun b hb => ?_⟩
  · rw [hbit]
    constructor
    · rintro (hlt | hb)
      · exact .inl ⟨.boot b, if_pos hlt⟩
      · obtain ⟨⟨⟨j, k⟩, b'⟩, he, rfl⟩ := List.mem_map.mp hb
        obtain ⟨hlive, hge, -, hl⟩ := hplace _ he
        refine .inl ⟨.block j k, own_block_iff.mpr ⟨hlive, ?_, ?_, by omega⟩⟩
        · exact k.isLt.trans (by decide)
        · rw [hat, (haddr j hlive.1 hlive.2).2, hl, Option.getD_some]
    · rintro (⟨p, hp⟩ | hb)
      · cases p with
        | boot c =>
          obtain ⟨rfl, hlt⟩ := own_boot_iff.mp hp
          exact .inl hlt
        | block j q =>
          obtain ⟨k, -, he⟩ := hown hp
          exact .inr (List.mem_map.mpr ⟨_, he, rfl⟩)
      · cases hb
  · cases p with
    | boot c =>
      obtain ⟨rfl, hlt⟩ := own_boot_iff.mp hp
      cases q with
      | boot d => rw [(own_boot_iff.mp hq).1]
      | block j r =>
        obtain ⟨k, -, he⟩ := hown hq
        exact absurd (hplace _ he).2.1 (Nat.not_le.mpr hlt)
    | block j r =>
      obtain ⟨k, rfl, he⟩ := hown hp
      cases q with
      | boot d =>
        obtain ⟨rfl, hlt⟩ := own_boot_iff.mp hq
        exact absurd (hplace _ he).2.1 (Nat.not_le.mpr hlt)
      | block j' r' =>
        obtain ⟨k', rfl, he'⟩ := hown hq
        have heq := List.inj_on_of_nodup_map honce he he' rfl
        cases heq
        rfl
  · rcases (hbit b).mp hb with hlt | hb
    · omega
    · obtain ⟨e, he, rfl⟩ := List.mem_map.mp hb
      exact (hplace e he).2.2.1

/-- The program `/a`: a header, a segment of eight bytes at offset 120, and eight more bytes of zeros. -/
def programImage : Fs.Image := update (ofCells [
  -- inode 1 : type, nlink, size, addrs[0]
  ((2, 64), 1), ((2, 70), 1), ((2, 72), 16), ((2, 76), 4),
  -- inode 2 : type, nlink, size, addrs[0]
  ((2, 128), 2), ((2, 134), 1), ((2, 136), 128), ((2, 140), 5),
  -- the entry for `a`
  ((4, 0), 2), ((4, 2), 97),
  -- the header: magic, entry, phoff, phnum
  ((5, 0), 0x7f), ((5, 1), 0x45), ((5, 2), 0x4c), ((5, 3), 0x46), ((5, 24), 4), ((5, 32), 64), ((5, 56), 1),
  -- the program header: type, flags, off, filesz, memsz
  ((5, 64), 1), ((5, 68), 5), ((5, 72), 120), ((5, 96), 8), ((5, 104), 16),
  -- the segment
  ((5, 120), 1), ((5, 121), 2), ((5, 127), 3)]) 3 fun o => if o = 0 then 0x3f else 0

/-- A bitmap in one byte. -/
theorem bit_of_byte {img : Fs.Image} {x : UInt8} (hstart : sb.bmapstart = 3) (hmeta : sb.nmeta = 4)
    (hbyte : ∀ o, img 3 o = if o = 0 then x else 0) (b : Nat) :
    (sb.view img).bit b = true ↔ b < 8 ∧ (x &&& mask b != 0) = true := by
  have hbb : sb.bblock b = b / 8192 + 3 := by
    rw [Superblock.bblock, hstart]
    rfl
  show (decide (sb.bblock b < sb.nmeta) && (img (sb.bblock b) (b % 8192 / 8) &&& mask (b % 8192 % 8) != 0)) = true ↔ _
  rw [hbb, hmeta, Bool.and_eq_true_iff, decide_eq_true_iff]
  by_cases hb : b < 8
  · rw [show b / 8192 + 3 = 3 by omega, show b % 8192 / 8 = 0 by omega,
      show b % 8192 % 8 = b by omega, hbyte, if_pos rfl]
    exact and_congr_left fun _ => ⟨fun _ => hb, fun _ => by decide⟩
  · refine ⟨fun h => ?_, fun h => absurd h.1 hb⟩
    have hlt := h.1
    rw [show b / 8192 + 3 = 3 by omega, hbyte, if_neg (by omega), UInt8.zero_and] at h
    exact Bool.noConfusion h.2

theorem programImage_bit (b : Nat) : (smallSb.view programImage).bit b = true ↔ b < smallSb.nmeta ∨ b ∈ [4, 5] := by
  rw [bit_of_byte (x := 0x3f) rfl rfl fun _ => rfl]
  by_cases hb : b < 8
  · have hall : ∀ b < 8, (b < 8 ∧ ((0x3f : UInt8) &&& mask b != 0) = true) ↔ b < smallSb.nmeta ∨ b ∈ [4, 5] := by decide
    exact hall b hb
  · refine ⟨fun h => absurd h.1 hb, fun h => ?_⟩
    rcases h with h | h
    · exact absurd (h.trans (show smallSb.nmeta < 8 by decide)) hb
    · rcases List.mem_pair.mp h with rfl | rfl
      · exact absurd (by decide) hb
      · exact absurd (by decide) hb

theorem program_sound : Sound smallSb (smallSb.view programImage) [] := by
  have hlaw : Law smallSb (smallSb.view programImage) [] :=
    law_of_direct (l := [((1, 0), 4), ((2, 0), 5)]) programImage_bit (by decide) (by decide) (by decide) (by decide)
  have hlive : ∀ j < 16, ((smallSb.view programImage).ino j).type ≠ 0 → j = 1 ∨ j = 2 := by decide
  refine { hlaw with full := fun j hj bn hbn => ?_, dirs := fun j hj htype k hk => ?_ }
  · -- each file has one block
    have hsize : ((smallSb.view programImage).ino j).size.toNat ≤ 128 := by
      rcases hlive j hj.1 hj.2 with rfl | rfl
      · decide
      · decide
    rw [show bsize = 1024 from rfl] at hbn
    obtain rfl : bn = 0 := by omega
    rcases hlive j hj.1 hj.2 with rfl | rfl
    · exact ⟨by decide, by decide⟩
    · exact ⟨by decide, by decide⟩
  · rcases hlive j hj.1 hj.2 with rfl | rfl
    · rw [show ((smallSb.view programImage).ino 1).size.toNat = 16 by decide, show direntSize = 16 from rfl] at hk
      obtain rfl : k = 0 := by omega
      decide
    · exact absurd htype (by decide)

theorem program_tree : Fs.Tree smallSb (smallSb.view programImage) := by
  have hlive : ∀ i < 16, ((smallSb.view programImage).ino i).type ≠ 0 → i = 1 ∨ i = 2 := by decide
  refine ⟨by decide, fun i hi htype => ?_, fun i name j k hi hpass hfound => ?_⟩
  · rcases hlive i hi.1 hi.2 with rfl | rfl
    · decide
    · exact absurd htype (by decide)
  · rcases hlive i hi.1 hi.2 with rfl | rfl
    · have hdir : (smallSb.view programImage).dirents 1 = [some ([97], 2)] := by decide
      rw [hdir] at hfound
      have hmem := List.mem_singleton.mp (List.mem_of_getElem? (Slots.lookup_some hfound))
      obtain rfl : j = 2 := (Prod.mk.inj (Option.some.inj hmem)).2
      decide
    · exact absurd hpass.1 (by decide)

theorem sample_program :
    ∃ prog, program (contents (smallSb.view programImage) 2) = some prog ∧ prog.entry = 4 ∧ prog.sz = 16 := by
  have hprog : (program (contents (smallSb.view programImage) 2)).map (fun prog => (prog.entry, prog.sz)) =
      some (4, 16) := by
    decide +kernel
  generalize program (contents (smallSb.view programImage) 2) = o at hprog ⊢
  cases o with
  | none => cases hprog
  | some prog =>
    obtain ⟨hentry, hsz⟩ := Prod.mk.inj (Option.some.inj hprog)
    exact ⟨prog, rfl, hentry, hsz⟩

theorem sample_fileAt :
    fileAt smallSb (.mount programImage) 0 [47, 97] = some (contents (smallSb.view programImage) 2) := by
  have hfold : (smallSb.view programImage).namei rootino [[97]] = some 2 := by decide
  rw [fileAt, show components [47, 97] = [[97]] by decide]
  exact congrArg (Option.map _) hfold

/-- After `mount` no inode of the table is held. -/
theorem not_inodesFull_mount {disk : Fs.Image} {e : Panic} : ¬InodesFull (.mount disk) e := by
  rintro ⟨-, ip, hall⟩
  have hpos : ∀ jp, jp = ip := fun jp => by
    by_contra hne
    exact absurd (hall jp hne) (by rw [holders_mount]; decide)
  exact absurd ((hpos 0).trans (hpos 1).symm) (by decide)

/-- Nothing stops the program `/a` but arguments that do not fit. -/
theorem sample_starts {argv : List Vm.Frame} (hargs : Args (sampleStart programImage).kern.phys argv)
    (hfits : Fits (argv.map (sampleStart programImage).kern.phys.mem)) :
    Runs (fun _ => False) (kexec smallSb 0 [47, 97] argv) (sampleStart programImage) fun r _ => r = argv.length := by
  obtain ⟨prog, hprog, -, hsz⟩ := sample_program
  obtain ⟨hfs, hcur, -, hlen, -⟩ := sample_current programImage
  have hstart : ∀ base,
      Starts smallSb (World.idle (sampleStart programImage).fs.ftable (sampleStart programImage).fs.cwd base 1)
      (sampleStart programImage).fs 0 0 [47, 97] := fun base hc => absurd rfl hc
  have hrun := kexec_file (hfs ▸ idle_mount program_sound) (hfs ▸ program_tree) hstart (by decide) hcur hargs
  rw [hfs] at hrun
  refine (hrun.weaken fun _ he => not_inodesFull_mount he).mono fun r t ht => ?_
  obtain ⟨-, ⟨hnone, -⟩ | ⟨c, hc, ⟨-, -, hshort⟩ | ⟨hr, -⟩⟩⟩ := ht
  · rw [sample_fileAt] at hnone
    cases hnone
  · rw [sample_fileAt, Option.some.injEq] at hc
    subst hc
    have hroom := hshort prog hprog hfits
    rw [hsz, show pages 16 = 1 by decide] at hroom
    omega
  · rwa [List.length_map] at hr

/-- The program `/a` is started with one argument, the empty string. -/
theorem exec_argument_stack_sample :
    Runs (fun _ => False) (kexec smallSb 0 [47, 97] [10]) (sampleStart programImage) fun r t =>
      r = 1 ∧ Started t.kern 0 8 4 [fun _ => 0] := by
  obtain ⟨prog, hprog, hentry, -⟩ := sample_program
  obtain ⟨hfs, hcur, htable, -, hmem⟩ := sample_current programImage
  have hzero : (sampleStart programImage).kern.phys.mem 10 = fun _ => 0 := hmem 10 (by decide)
  have hargs : Args (sampleStart programImage).kern.phys [10] := by
    refine ⟨by decide, fun f hf => ?_, fun f hf => ?_⟩
    · rw [List.mem_singleton.mp hf]
      exact htable.space.not_free_ext (inUse_eq_some.mpr ⟨rfl, by decide⟩)
    · rw [List.mem_singleton.mp hf, hzero]
      decide
  have hstarts := sample_starts hargs (by rw [List.map_singleton, hzero]; decide)
  have hrun := exec_argument_stack (hfs ▸ idle_mount program_sound) (hfs ▸ program_tree)
    (fun base hc => absurd rfl hc) (by decide) hcur hargs (hfs ▸ sample_fileAt) hprog
  refine ((hstarts.and hrun).weaken fun _ he => he.1).mono fun r t ht => ?_
  obtain ⟨hr, -, hstarted⟩ := ht
  refine ⟨hr, ?_⟩
  have hsome := (hstarted (by rw [hr]; decide)).2.2
  rwa [List.map_singleton, hzero, hentry] at hsome

end

end Xv6.Exec
