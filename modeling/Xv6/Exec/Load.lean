import Xv6.Exec.Code
import Xv6.Vm.Cells

/-!
# Loading a program

* `Contents`, `Contents.slice` : the bytes of a file, and what `readi()` reads of them;
* `load c k off sz m` : what the loop of `kexec()` makes of the next `k` program headers, at `off`, if there is memory
  enough: the size of the image and what is in it;
* `loadseg_spec`, `loadLoop_spec` : the loop does that, or fails.
-/

namespace Xv6.Exec
open Vm Fs Kern Bytes Hoare

/-! ## Programs of other parts of the kernel -/

def State.withPhys (s : State) (phys : Phys) : State := { s with kern := { s.kern with phys := phys } }

section
variable {A B : Type} {R : Panic → Prop} {s : State} {Q : A → State → Prop} {k : B → ExecM A}

theorem kern_spec {m : KernM B} {P : B → Kern.State → Prop} (hm : Runs (fun e => R (.kern e)) m s.kern P) :
    Runs R (kern m) s fun b t => ∃ kern, P b kern ∧ t = { s with kern := kern } := by
  rw [Runs, kern]
  rw [Runs] at hm
  revert hm
  cases m s.kern with
  | error e => exact id
  | ok r => exact fun hr => ⟨r.2, hr, rfl⟩

theorem kern_bind {m : KernM B} {P : B → Kern.State → Prop} (hm : Runs (fun e => R (.kern e)) m s.kern P)
    (hk : ∀ b t, P b t → Runs R (k b) { s with kern := t } Q) : Runs R (kern m >>= k) s Q := by
  refine (kern_spec hm).seq fun b t ht => ?_
  obtain ⟨kern, hP, rfl⟩ := ht
  exact hk b kern hP

theorem file_bind {m : FsM B} {P : B → FsState → Prop} (hm : Runs (fun e => R (.fs e)) m s.fs P)
    (hk : ∀ b t, P b t → Runs R (k b) { s with fs := t } Q) : Runs R (file m >>= k) s Q := by
  have hfile : Runs R (file m) s fun b t => ∃ fs, P b fs ∧ t = { s with fs := fs } := by
    rw [Runs, file]
    rw [Runs] at hm
    revert hm
    cases m s.fs with
    | error e => exact id
    | ok r => exact fun hr => ⟨r.2, hr, rfl⟩
  refine hfile.seq fun b t ht => ?_
  obtain ⟨fs, hP, rfl⟩ := ht
  exact hk b fs hP

theorem vm_bind {m : VmM B} {P : B → Phys → Prop} (hm : Runs (fun e => R (.kern (.vm e))) m s.kern.phys P)
    (hk : ∀ b phys, P b phys → Runs R (k b) (s.withPhys phys) Q) : Runs R (vm m >>= k) s Q := by
  have hvm : Runs (fun e => R (.kern e)) (Kern.vm m) s.kern fun b t => ∃ phys, P b phys ∧
      t = { s.kern with phys := phys } := by
    rw [Runs, Kern.vm]
    rw [Runs] at hm
    revert hm
    cases m s.kern.phys with
    | error e => exact id
    | ok r => exact fun hr => ⟨r.2, hr, rfl⟩
  refine kern_bind hvm fun b t ht => ?_
  obtain ⟨phys, hP, rfl⟩ := ht
  exact hk b phys hP

end

/-! ## Files -/

structure Contents where
  size : Nat
  byte : Nat → UInt8

def Contents.slice (c : Contents) (off n : Nat) : List UInt8 :=
  (List.range (min n (c.size - off))).map fun k => c.byte (off + k)

theorem Contents.length_slice (c : Contents) (off n : Nat) : (c.slice off n).length = min n (c.size - off) := by
  rw [slice, List.length_map, List.length_range]

theorem Contents.getD_slice (c : Contents) {off n k : Nat} (hk : k < min n (c.size - off)) :
    (c.slice off n).getD k 0 = c.byte (off + k) := by
  rw [List.getD_eq_getElem _ _ (by rwa [c.length_slice])]
  simp only [slice, List.getElem_map, List.getElem_range]

/-- File `i` of an image. -/
def contents (v : View) (i : Nat) : Contents := ⟨(v.ino i).size.toNat, v.byteAt i⟩

section
variable {sb : Superblock} {ip : Ip} {c : Contents}

/-- The inode is locked, and `c` can be read from it. -/
structure Reads (sb : Superblock) (ip : Ip) (c : Contents) (fs : FsState) : Prop where
  size : c.size ≤ maxfile * bsize
  read : ∀ off n, off < 2 ^ 32 → n ≤ 4096 →
    Runs (fun _ => False) (readi sb ip n off n) fs fun r t => t = fs ∧ r = some (c.slice off n)

/-- `readi()` into kernel memory. -/
theorem reads_of_ok {w : World} {X : List Nat} {s : FsState} (h : Ok sb w X .clean s) (hl : w.locks ip = true) :
    Reads sb ip (contents (sb.view s.disk) (s.itable ip).inum) s := by
  obtain ⟨hino, -⟩ := h.ino_locked hl
  have hholds := h.holds hl
  have hmax : (s.itable ip).din.size.toNat ≤ maxfile * bsize := by
    by_contra hc
    exact absurd (hholds.full maxfile (by omega)).1 (Nat.lt_irrefl _)
  have hfile : maxfile * bsize = 274432 := by decide
  have hsize : (s.itable ip).din.size.toNat = (contents (sb.view s.disk) (s.itable ip).inum).size := by rw [← hino]; rfl
  set c := contents (sb.view s.disk) (s.itable ip).inum with hc
  refine ⟨hsize ▸ hmax, fun off n hoff hn => ?_⟩
  have hloop : ∀ k, k ≤ n → off + k ≤ (s.itable ip).din.size.toNat → min n (c.size - off) = k →
      Runs (fun _ => False) (readLoop sb ip n k k off 0 []) s fun r t => t = s ∧ r = some (c.slice off n) := by
    intro k hk hin hmin
    refine (readLoop_spec hholds k off 0 [] (Nat.le_refl _) (Nat.zero_le _) hin).mono fun r t ⟨ht, hr⟩ => ⟨ht, ?_⟩
    rcases hr with hr | ⟨-, hlt⟩
    · rw [hr, List.nil_append, Nat.sub_zero, Contents.slice, hmin]
      rfl
    · exact absurd hlt (Nat.not_lt.mpr hk)
  unfold readi
  refine .get_bind (.ite (fun hc => .pure ⟨rfl, ?_⟩) fun hc => ?_)
  · rw [Contents.slice, show min n (c.size - off) = 0 by omega]
    rfl
  · rw [not_or] at hc
    exact .ite (fun _ => hloop _ (by omega) (by omega) (by omega)) fun _ =>
      hloop _ (Nat.le_refl _) (by omega) (by omega)

/-! ## Segments -/

namespace Proghdr
variable (ph : Proghdr) (c : Contents) (sz : BitVec 64) (m : Cells)

/-- The offset and the number of bytes that `loadseg()` is given, as `uint`s. -/
def offset : Nat := (ph.off.setWidth 32).toNat

def count : Nat := (ph.filesz.setWidth 32).toNat

def stop : BitVec 64 := ph.vaddr + ph.memsz

/-- The size of the memory with the segment. -/
def grow : BitVec 64 := if ph.stop < sz then sz else ph.stop

def perm : BitVec 64 := pteR ||| pteU ||| flags2perm ph.flags

/-- The memory with the segment. -/
def put : Cells :=
  (m.alloc (pages sz) (pages ph.stop) ph.perm).write ph.vaddr.toNat ph.count fun k => c.byte (ph.offset + k)

/-- The bytes of the segment are in the file. -/
def InFile : Prop := ph.count = 0 ∨ ph.offset + ph.count ≤ c.size

/-- What a segment has to meet. -/
def Accepted : Prop :=
  ¬ ph.memsz < ph.filesz ∧ ¬ ph.stop < ph.vaddr ∧ ph.vaddr % 4096#64 = 0 ∧ ph.grow sz ≠ 0 ∧ ph.InFile c

instance : Decidable (ph.InFile c) := inferInstanceAs (Decidable (_ ∨ _))

instance : Decidable (ph.Accepted c sz) := inferInstanceAs (Decidable (_ ∧ _))

end Proghdr

/-- The header at `off`. -/
def Contents.proghdr (c : Contents) (off : Nat) : Option Proghdr :=
  if off + proghdrSize ≤ c.size then some (.ofBytes (c.slice off proghdrSize)) else none

def load (c : Contents) : Nat → BitVec 32 → BitVec 64 → Cells → Option (BitVec 64 × Cells)
  | 0, _, sz, m => some (sz, m)
  | k + 1, off, sz, m =>
    (c.proghdr off.toNat).bind fun ph =>
      if ph.type ≠ elfProgLoad then load c k (off + 56#32) sz m
      else if ph.Accepted c sz then load c k (off + 56#32) (ph.grow sz) (ph.put c sz m)
      else none

section
variable {P : Type} {R : Panic → Prop} {s : State} {s0 phys : Phys} {root : Vm.Frame} {ext : P → Option Vm.Frame}
  {top : Nat → Option (BitVec 64)} {psz va : BitVec 64} {offset sz : BitVec 32} {m : Cells} {d len : Nat}

theorem withPhys_withPhys (s : State) (phys phys' : Phys) : (s.withPhys phys).withPhys phys' = s.withPhys phys' := rfl

/-- What `loadseg()` has done when it returns `r`. -/
def SegmentRead (s : State) (s0 phys : Phys) (root : Vm.Frame) (ext : P → Option Vm.Frame)
    (top : Nat → Option (BitVec 64))
    (psz : BitVec 64) (c : Contents) (m : Cells) (va off n : Nat) (r : Int) (t : State) : Prop :=
  ∃ phys', t = s.withPhys phys' ∧ phys'.freelist = phys.freelist ∧
    ((r = 0 ∧ (n = 0 ∨ off + n ≤ c.size) ∧ UserMem s0 phys' root ext top psz (m.write va n fun k => c.byte (off + k))) ∨
      (r = -1 ∧ ¬ (n = 0 ∨ off + n ≤ c.size) ∧ ∃ m', UserMem s0 phys' root ext top psz m'))

/-- A turn of the loop that has read all it wanted. -/
theorem turn_full {n k off size : Nat} (hmod : d % 4096 = 0) (hk : k + 1 = (n - d + 4095) / 4096)
    (hlen : len = min (min (n - d) 4096) (size - (off + d))) (hall : len = min (n - d) 4096) :
    (d + 4096) % 4096 = 0 ∧ k = (n - (d + 4096) + 4095) / 4096 ∧ off + min (d + 4096) n ≤ size ∧
      min (d + 4096) n = d + len := by
  omega

theorem turn_short {n off size : Nat} (hlen : len = min (min (n - d) 4096) (size - (off + d)))
    (hshort : len ≠ min (n - d) 4096) : ¬ (n = 0 ∨ off + n ≤ size) := by
  omega

theorem turn_page {a : Nat} (hva : a % 4096 = 0) (hmod : d % 4096 = 0) (hlen : len ≤ 4096) :
    (a + d) % 4096 = 0 ∧ (a + d) % 4096 + len ≤ 4096 := by
  omega

theorem toNat_sub_turn (hlt : d < sz.toNat) :
    (if sz - BitVec.ofNat 32 d < 4096#32 then sz - BitVec.ofNat 32 d else 4096#32).toNat = min (sz.toNat - d) 4096 := by
  have hsz := sz.isLt
  have hsub : (sz - BitVec.ofNat 32 d).toNat = sz.toNat - d := by
    rw [BitVec.toNat_sub, BitVec.toNat_ofNat]
    omega
  by_cases hpart : sz - BitVec.ofNat 32 d < 4096#32
  · rw [if_pos hpart, hsub]
    rw [BitVec.lt_def, hsub] at hpart
    exact (Nat.min_eq_left (Nat.le_of_lt hpart)).symm
  · rw [if_neg hpart]
    rw [BitVec.lt_def, hsub] at hpart
    exact (Nat.min_eq_right (Nat.le_of_not_lt hpart)).symm

/-- The addresses of a turn do not wrap. -/
theorem turn_address (hd : d < 2 ^ 32) (ha : va.toNat + d < userPages * 4096) :
    va + (BitVec.ofNat 32 d).setWidth 64 = BitVec.ofNat 64 (va.toNat + d) := by
  apply BitVec.eq_of_toNat_eq
  rw [BitVec.toNat_add, BitVec.toNat_setWidth, BitVec.toNat_ofNat, toNat_user ha]
  rw [userPages] at ha
  omega

theorem turn_offset {offset : BitVec 32} (h : offset.toNat + d < 2 ^ 32) :
    (offset + BitVec.ofNat 32 d).toNat = offset.toNat + d := by
  rw [BitVec.toNat_add, BitVec.toNat_ofNat]
  omega

theorem loadTurns_spec (hin : Reads sb ip c s.fs) (hkend : 0 < s0.kend)
    (hva : va.toNat % 4096 = 0) (hfit : va.toNat + sz.toNat ≤ userPages * 4096)
    (hread : ∀ x, va.toNat ≤ x → x < va.toNat + sz.toNat → m.Readable x) (k : Nat) :
    ∀ done phys', done % 4096 = 0 → k = (sz.toNat - done + 4095) / 4096 → phys'.freelist = phys.freelist →
    (done = 0 ∨ offset.toNat + min done sz.toNat ≤ c.size) →
    UserMem s0 phys' root ext top psz (m.write va.toNat (min done sz.toNat) fun k => c.byte (offset.toNat + k)) →
    Runs R (loadTurns sb root va ip offset sz k (BitVec.ofNat 32 done)) (s.withPhys phys')
      (SegmentRead s s0 phys root ext top psz c m va.toNat offset.toNat sz.toNat) := by
  have hsz := sz.isLt
  have hoff := offset.isLt
  have hsize := hin.size
  have hmax : maxfile * bsize = 274432 := by decide
  induction k with
  | zero =>
    intro done phys' _ hk hfree hdone h
    rw [Nat.min_eq_right (by omega)] at hdone h
    exact .pure ⟨phys', rfl, hfree, .inl ⟨rfl, by omega, h⟩⟩
  | succ k ih =>
    intro done phys' hmod hk hfree hdone h
    have hlt : done < sz.toNat := by omega
    rw [Nat.min_eq_left (Nat.le_of_lt hlt)] at hdone h
    have ha : va.toNat + done < userPages * 4096 := Nat.lt_of_lt_of_le (Nat.add_lt_add_left hlt _) hfit
    have haddr := turn_address (hlt.trans hsz) ha
    obtain ⟨pte, hleaf, huser⟩ := h.leaf_readable ha (hread _ (Nat.le_add_right ..) (Nat.add_lt_add_left hlt _)).write
    have hpool := (h.space.pool _ _ (leafFrames_user ha hleaf)).1
    have hne : (pteFrame pte).addr ≠ 0 := by
      intro hzero
      rw [hzero, h.kend] at hpool
      exact absurd (Nat.lt_of_lt_of_le hkend hpool) (Nat.lt_irrefl 0)
    have hpos : offset.toNat + done < 2 ^ 32 := by omega
    unfold loadTurns
    refine vm_bind (walkaddr_spec (by rw [haddr]; exact user_lt_maxva ha)) fun pa phys'' hpa => ?_
    obtain ⟨rfl, hpa⟩ := hpa
    rw [haddr] at hpa
    rcases hpa with ⟨pte', hleaf', -, rfl⟩ | ⟨-, hdeny⟩
    · obtain rfl : pte = pte' := Option.some.inj (hleaf.symm.trans hleaf')
      rw [if_neg hne]
      dsimp only
      rw [toNat_sub_turn hlt, turn_offset hpos]
      have hrun := hin.read (offset.toNat + done) (min (sz.toNat - done) 4096) hpos (Nat.min_le_right ..)
      refine file_bind (hrun.weaken fun _ hf => hf.elim) fun r fs hr => ?_
      obtain ⟨rfl, rfl⟩ := hr
      dsimp only
      set b := c.slice (offset.toNat + done) (min (sz.toNat - done) 4096) with hb
      have hlen : b.length = min (min (sz.toNat - done) 4096) (c.size - (offset.toNat + done)) := c.length_slice ..
      have hle : b.length ≤ 4096 := hlen ▸ (Nat.min_le_left ..).trans (Nat.min_le_right ..)
      obtain ⟨hzero, hin⟩ := turn_page hva hmod hle
      have hstore := h.store (fun k => b.getD k 0) ha hin hleaf
      rw [hzero] at hstore
      refine vm_bind (P :=
        fun _ t => t = { phys'' with mem := phys''.mem.store (pteFrame pte) 0 b.length fun k => b.getD k 0 })
        (.of_modify (by rw [frameOf_addr]; rfl)) fun _ phys3 ht => ?_
      subst ht
      refine .ite (fun hall => ?_) fun hshort =>
        Runs.pure ⟨_, rfl, hfree, .inr ⟨rfl, turn_short hlen hshort, _, hstore⟩⟩
      obtain ⟨hmod', hk', hfile, hdone'⟩ := turn_full hmod hk hlen hall
      have hnext : BitVec.ofNat 32 done + 4096#32 = BitVec.ofNat 32 (done + 4096) := (BitVec.ofNat_add ..).symm
      rw [hnext]
      refine ih (done + 4096) _ hmod' hk' hfree (.inr hfile) ?_
      have hbytes : (m.write va.toNat done fun k => c.byte (offset.toNat + k)).write (va.toNat + done) b.length
          (fun k => b.getD k 0) =
          m.write va.toNat (min (done + 4096) sz.toNat) fun k => c.byte (offset.toNat + k) := by
        rw [hdone', ← Cells.write_write]
        refine Cells.write_congr fun k hk => ?_
        rw [hb, c.getD_slice (hlen ▸ hk), Nat.add_assoc]
      rwa [hbytes] at hstore
    · exact absurd (hdeny pte hleaf) huser

theorem loadseg_spec (hin : Reads sb ip c s.fs) (hkend : 0 < s0.kend)
    (hva : va.toNat % 4096 = 0) (hfit : va.toNat + sz.toNat ≤ userPages * 4096)
    (hread : ∀ x, va.toNat ≤ x → x < va.toNat + sz.toNat → m.Readable x) (h : UserMem s0 phys root ext top psz m) :
    Runs R (loadseg sb root va ip offset sz) (s.withPhys phys)
      (SegmentRead s s0 phys root ext top psz c m va.toNat offset.toNat sz.toNat) := by
  refine loadTurns_spec hin hkend hva hfit hread _ 0 phys rfl rfl rfl (.inl rfl) ?_
  rw [Nat.zero_min, Cells.write_zero]
  exact h

end

/-! ## The headers -/

theorem flags2perm_cases (flags : BitVec 32) :
    flags2perm flags = 0 ∨ flags2perm flags = pteX ∨ flags2perm flags = pteW ∨ flags2perm flags = pteX ||| pteW := by
  rw [flags2perm]
  by_cases hx : flags &&& 1#32 ≠ 0 <;> by_cases hw : flags &&& 2#32 ≠ 0
  · exact .inr (.inr (.inr (by rw [if_pos hx, if_pos hw])))
  · exact .inr (.inl (by rw [if_pos hx, if_neg hw]))
  · exact .inr (.inr (.inl (by rw [if_neg hx, if_pos hw]; decide)))
  · exact .inl (by rw [if_neg hx, if_neg hw])

theorem Proghdr.perm_lt (ph : Proghdr) : ph.perm.toNat < 2 ^ 10 := by
  rw [perm]
  rcases flags2perm_cases ph.flags with h | h | h | h <;> rw [h] <;> decide

theorem Proghdr.perm_user (ph : Proghdr) : (ph.perm ||| pteV) &&& pteU ≠ 0 := by
  rw [perm]
  rcases flags2perm_cases ph.flags with h | h | h | h <;> rw [h] <;> decide

section
variable {ph : Proghdr} {sz szf : BitVec 64} {m mf : Cells} {off : BitVec 32} {k : Nat}

theorem Proghdr.le_grow (ph : Proghdr) (sz : BitVec 64) : sz ≤ ph.grow sz ∧ ph.stop ≤ ph.grow sz := by
  rw [grow]
  by_cases h : ph.stop < sz
  · rw [if_pos h]
    exact ⟨BitVec.le_refl sz, BitVec.le_of_lt h⟩
  · rw [if_neg h]
    exact ⟨BitVec.not_lt.mp h, BitVec.le_refl _⟩

theorem Proghdr.pages_grow (ph : Proghdr) (sz : BitVec 64) : pages (ph.grow sz) = max (pages sz) (pages ph.stop) := by
  rw [grow]
  by_cases h : ph.stop < sz
  · have hmono := pages_mono (Nat.le_of_lt (BitVec.lt_def.mp h))
    rw [if_pos h, Nat.max_eq_left hmono]
  · have hmono := pages_mono (BitVec.le_def.mp (BitVec.not_lt.mp h))
    rw [if_neg h, Nat.max_eq_right hmono]

/-- Where an accepted segment lies. -/
theorem Proghdr.range (ph : Proghdr) (hwrap : ¬ ph.stop < ph.vaddr) (halign : ph.vaddr % 4096#64 = 0) :
    ph.vaddr.toNat % 4096 = 0 ∧ ph.stop.toNat = ph.vaddr.toNat + ph.memsz.toNat := by
  have hmod := congrArg BitVec.toNat halign
  rw [BitVec.toNat_umod] at hmod
  rw [BitVec.lt_def, stop, BitVec.toNat_add] at hwrap
  have hv := ph.vaddr.isLt
  have hm := ph.memsz.isLt
  refine ⟨hmod, ?_⟩
  rw [stop, BitVec.toNat_add]
  omega

theorem Proghdr.count_le (ph : Proghdr) (hmem : ¬ ph.memsz < ph.filesz) : ph.count ≤ ph.memsz.toNat := by
  rw [BitVec.lt_def] at hmem
  have hle := Nat.mod_le ph.filesz.toNat (2 ^ 32)
  rw [count, BitVec.toNat_setWidth]
  omega

theorem load_succ (hph : c.proghdr off.toNat = some ph) : load c (k + 1) off sz m =
    if ph.type ≠ elfProgLoad then load c k (off + 56#32) sz m
    else if ph.Accepted c sz then load c k (off + 56#32) (ph.grow sz) (ph.put c sz m)
    else none := by
  rw [load, hph, Option.bind_some]

/-- The memory only grows. -/
theorem load_mono (h : load c k off sz m = some (szf, mf)) : sz ≤ szf := by
  induction k generalizing off sz m with
  | zero =>
    rw [load] at h
    cases h
    exact BitVec.le_refl _
  | succ k ih =>
    cases hph : c.proghdr off.toNat with
    | none =>
      rw [load, hph] at h
      cases h
    | some ph =>
      rw [load_succ hph] at h
      by_cases htype : ph.type ≠ elfProgLoad
      · rw [if_pos htype] at h
        exact ih h
      · rw [if_neg htype] at h
        by_cases hacc : ph.Accepted c sz
        · rw [if_pos hacc] at h
          exact BitVec.le_trans (ph.le_grow sz).1 (ih h)
        · rw [if_neg hacc] at h
          cases h

/-- All of the memory is for the user. -/
def AllReadable (sz : BitVec 64) (m : Cells) : Prop := ∀ a < userPages * 4096, a / 4096 < pages sz → m.Readable a

theorem AllReadable.alloc (h : AllReadable sz m) (ph : Proghdr) :
    AllReadable (ph.grow sz) (m.alloc (pages sz) (pages ph.stop) ph.perm) := by
  intro a ha hlt
  rw [ph.pages_grow] at hlt
  rw [Cells.Readable, Cells.alloc]
  by_cases hin : pages sz ≤ a / 4096 ∧ a / 4096 < pages ph.stop
  · rw [if_pos hin]
    exact ⟨_, rfl, ph.perm_user⟩
  · rw [if_neg hin]
    exact h a ha (by omega)

theorem AllReadable.put (h : AllReadable sz m) (ph : Proghdr) (c : Contents) :
    AllReadable (ph.grow sz) (ph.put c sz m) :=
  fun a ha hlt => (h.alloc ph a ha hlt).write

end

theorem readStruct_spec {R : Panic → Prop} {s : State} {off n : Nat} (hin : Reads sb ip c s.fs) (hoff : off < 2 ^ 32)
    (hpos : 0 < n) (hn : n ≤ 4096) :
    Runs R (readStruct sb ip off n) s fun r t => t = s ∧
      r = if off + n ≤ c.size then some (c.slice off n) else none := by
  unfold readStruct
  refine file_bind ((hin.read off n hoff hn).weaken fun _ hf => hf.elim) fun r fs hr => ?_
  obtain ⟨rfl, rfl⟩ := hr
  have hlen := c.length_slice off n
  refine .ite (fun hall => .pure ⟨rfl, ?_⟩) fun hshort => .pure ⟨rfl, ?_⟩
  · rw [if_pos (by omega)]
  · rw [if_neg (by omega)]

section
variable {P : Type} [DecidableEq P] {R : Panic → Prop} {s : State} {s0 phys : Phys} {root : Vm.Frame}
  {ext : P → Option Vm.Frame} {top : Nat → Option (BitVec 64)} {n a b g f : Nat}

/-- What the loop over the headers has done when it returns `r`. -/
def Loaded (s : State) (s0 phys : Phys) (root : Vm.Frame) (ext : P → Option Vm.Frame) (top : Nat → Option (BitVec 64))
    (c : Contents) (k : Nat) (off : BitVec 32) (sz : BitVec 64) (m : Cells) (r : Bool × BitVec 64) (t : State) : Prop :=
  ∃ phys', t = s.withPhys phys' ∧
    ((r.1 = true ∧ ∃ m', load c k off sz m = some (r.2, m') ∧ UserMem s0 phys' root ext top r.2 m' ∧
        AllReadable r.2 m' ∧ phys.freelist.length ≤ phys'.freelist.length + 3 * (pages r.2 - pages sz)) ∨
      (r.1 = false ∧ (∃ m', UserMem s0 phys' root ext top r.2 m') ∧
        ∀ szf mf, load c k off sz m = some (szf, mf) → phys.freelist.length < 3 * (pages szf - pages sz)))

/-- Pages spent: those of a header, with those of the headers after it. -/
theorem spent_le {n1 n2 : Nat} (hpages : g = max a b) (hg : g ≤ f) (h1 : n ≤ n1 + 3 * (b - a))
    (h2 : n1 ≤ n2 + 3 * (f - g)) : n ≤ n2 + 3 * (f - a) := by
  omega

theorem spent_lt {n1 : Nat} (hpages : g = max a b) (hg : g ≤ f) (h1 : n ≤ n1 + 3 * (b - a)) (h2 : n1 < 3 * (f - g)) :
    n < 3 * (f - a) := by
  omega

theorem spent_first (hpages : g = max a b) (hg : g ≤ f) (h : n < 3 * (b - a)) : n < 3 * (f - a) := by
  omega

/-- **The loop over the program headers** loads what they say, or fails. -/
theorem loadLoop_spec (hin : Reads sb ip c s.fs) (hkend : 0 < s0.kend) (k : Nat) :
    ∀ off sz m phys, UserMem s0 phys root ext top sz m → AllReadable sz m →
    Runs R (loadLoop sb root ip k off sz) (s.withPhys phys) (Loaded s s0 phys root ext top c k off sz m) := by
  induction k with
  | zero => exact fun off sz m phys h hread => .pure ⟨phys, rfl, .inl ⟨rfl, m, rfl, h, hread, by omega⟩⟩
  | succ k ih =>
    intro off sz m phys h hread
    unfold loadLoop
    refine (readStruct_spec (R := R) (s := s.withPhys phys) hin off.isLt (by decide) (by decide)).seq fun r t hr => ?_
    obtain ⟨rfl, rfl⟩ := hr
    -- the run stops here, and so does `load`
    have hstop : ∀ {phys' m'}, UserMem s0 phys' root ext top sz m' → load c (k + 1) off sz m = none →
        Loaded s s0 phys root ext top c (k + 1) off sz m (false, sz) (s.withPhys phys') := fun h' hnone =>
      ⟨_, rfl, .inr ⟨rfl, ⟨_, h'⟩, fun szf mf hload => absurd (hnone.symm.trans hload) (Option.some_ne_none _).symm⟩⟩
    by_cases hhdr : off.toNat + proghdrSize ≤ c.size
    · have hph : c.proghdr off.toNat = some (.ofBytes (c.slice off.toNat proghdrSize)) := if_pos hhdr
      rw [if_pos hhdr]
      dsimp only
      generalize Proghdr.ofBytes (c.slice off.toNat proghdrSize) = ph at hph ⊢
      have hload : load c (k + 1) off sz m = _ := load_succ hph
      refine .ite (fun htype => ?_) fun htype => ?_
      · rw [if_pos htype] at hload
        refine (ih (off + 56#32) sz m phys h hread).mono fun r t ht => ?_
        rwa [Loaded, hload]
      · rw [if_neg htype] at hload
        have hreject : ¬ ph.Accepted c sz → load c (k + 1) off sz m = none := fun hna => by rw [hload, if_neg hna]
        refine .ite (fun hmem => .pure (hstop h (hreject fun ha => ha.1 hmem))) fun hmem => ?_
        refine .ite (fun hwrap => .pure (hstop h (hreject fun ha => ha.2.1 hwrap))) fun hwrap => ?_
        refine .ite (fun hodd => .pure (hstop h (hreject fun ha => hodd ha.2.2.1))) fun hodd => ?_
        refine vm_bind (h.uvmalloc (flags2perm ph.flags) ph.perm_lt ph.stop) fun sz1 phys1 hsz1 => ?_
        rw [withPhys_withPhys]
        rcases hsz1 with ⟨hsz1, h1, hlen⟩ | ⟨rfl, h1, hlen⟩
        · obtain rfl : sz1 = ph.grow sz := hsz1
          have hle := ph.le_grow sz
          refine .ite (fun hzero => ?_) fun hzero => ?_
          · have hsame : ph.grow sz = sz := by
              have hsz := hle.1
              rw [hzero] at hsz
              exact hzero.trans (BitVec.le_zero_iff.mp hsz).symm
            rw [hsame] at h1
            exact .pure (hstop h1 (hreject fun ha => ha.2.2.2.1 hzero))
          · obtain ⟨hva, hend⟩ := ph.range hwrap (not_not.mp hodd)
            have hcount := ph.count_le hmem
            have hfit : ph.vaddr.toNat + ph.count ≤ (ph.grow sz).toNat :=
              (hend ▸ Nat.add_le_add_left hcount _ : _ ≤ ph.stop.toNat).trans hle.2
            refine (loadseg_spec hin hkend hva (hfit.trans h1.size) (fun x _ hlt => ?_) h1).seq fun r t ht => ?_
            · have hx : x < (ph.grow sz).toNat := Nat.lt_of_lt_of_le hlt hfit
              exact hread.alloc ph x (hx.trans_le h1.size) (by rw [pages]; omega)
            · obtain ⟨phys2, rfl, hfree, hcase⟩ := ht
              rcases hcase with ⟨rfl, hfile, h2⟩ | ⟨rfl, hfile, m', h2⟩
              · rw [if_neg (by decide)]
                rw [if_pos ⟨hmem, hwrap, not_not.mp hodd, hzero, hfile⟩] at hload
                refine (ih _ _ _ phys2 h2 (hread.put ph c)).mono fun r t ht => ?_
                obtain ⟨phys3, rfl, hcase⟩ := ht
                have hpages := ph.pages_grow sz
                have hgrown : ∀ {szf mf}, load c k (off + 56#32) (ph.grow sz) (ph.put c sz m) = some (szf, mf) →
                    pages (ph.grow sz) ≤ pages szf := fun hl => pages_mono (load_mono hl)
                rw [hfree] at hcase
                refine ⟨phys3, rfl, hcase.imp ?_ ?_⟩
                · rintro ⟨hr, m', hl, h3, hread3, hlen3⟩
                  have hg := hgrown hl
                  exact ⟨hr, m', hload.trans hl, h3, hread3, spent_le hpages hg hlen hlen3⟩
                · rintro ⟨hr, h3, hshort⟩
                  refine ⟨hr, h3, fun szf mf hl => ?_⟩
                  rw [hload] at hl
                  have hg := hgrown hl
                  exact spent_lt hpages hg hlen (hshort szf mf hl)
              · rw [if_pos (by decide)]
                refine .pure ⟨phys2, rfl, .inr ⟨rfl, ⟨m', h2⟩, fun szf mf hl => ?_⟩⟩
                rw [hreject fun ha => hfile ha.2.2.2.2] at hl
                cases hl
        · rw [if_pos rfl]
          refine .pure ⟨phys1, rfl, .inr ⟨rfl, ⟨m, h1⟩, fun szf mf hl => ?_⟩⟩
          by_cases hacc : ph.Accepted c sz
          · rw [hload, if_pos hacc] at hl
            exact spent_first (ph.pages_grow sz) (pages_mono (BitVec.le_def.mp (load_mono hl))) hlen
          · rw [hreject hacc] at hl
            cases hl
    · rw [if_neg hhdr]
      refine .pure (hstop h ?_)
      rw [load, Contents.proghdr, if_neg hhdr, Option.bind_none]

end

end

end Xv6.Exec
