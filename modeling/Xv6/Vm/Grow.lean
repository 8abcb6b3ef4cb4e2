import Xv6.Vm.Fill

/-!
# Growing and shrinking user memory

* `growproc`, `sysSbrk` : on the page table and the size of the calling process; they also return its new size;
* `Image s root sz ext` : the address space of a process of size `sz`: no page is mapped from `PGROUNDUP(sz)` up to
  `TRAPFRAME`;
* `uvmalloc_spec`, `uvmdealloc_spec` : user pages come and go;
* `sbrk_grows_and_shrinks` : what `sbrk()` does, in both modes, for any increment.
-/

namespace Xv6.Vm
open Radix Alloc Hoare

/-- `growproc()`, and the new `p->sz`. -/
def growproc (pagetable : Frame) (sz : BitVec 64) (n : BitVec 32) : VmM (Int × BitVec 64) := do
  if 0 < n.toInt then
    if trapframe < sz + n.signExtend 64 then return (-1, sz)
    else
      let sz' ← uvmalloc pagetable sz (sz + n.signExtend 64) pteW
      if sz' = 0 then return (-1, sz) else return (0, sz')
  else if n.toInt < 0 then
    let sz' ← uvmdealloc pagetable sz (sz + n.signExtend 64)
    return (0, sz')
  else return (0, sz)

def sbrkEager : BitVec 32 := 1

/-- `sys_sbrk()` with its two arguments, and the new `p->sz`. -/
def sysSbrk (pagetable : Frame) (sz : BitVec 64) (n t : BitVec 32) : VmM (BitVec 64 × BitVec 64) := do
  if t = sbrkEager ∨ n.toInt < 0 then
    let r ← growproc pagetable sz n
    if r.1 < 0 then return (-1, r.2) else return (sz, r.2)
  else if sz + n.signExtend 64 < sz then return (-1, sz)
  else if trapframe < sz + n.signExtend 64 then return (-1, sz)
  else return (sz, sz + n.signExtend 64)

section
variable {P : Type} {s t u : Phys} {root f r : Frame} {ext : P → Option Frame} {held : List Frame}
  {va perm sz oldsz newsz : BitVec 64} {n b v v' : Nat} {sz' : BitVec 64} {R : VmPanic → Prop}

/-! ## Sizes -/

/-- The number of pages of a process of size `sz`. -/
def pages (sz : BitVec 64) : Nat := (sz.toNat + 4095) / 4096

theorem pages_le (h : sz.toNat ≤ v * 4096) : pages sz ≤ v := by
  rw [pages]
  omega

theorem pages_mono (h : oldsz.toNat ≤ newsz.toNat) : pages oldsz ≤ pages newsz := by
  rw [pages, pages]
  omega

theorem pgroundup_eq (h : sz.toNat ≤ 2 ^ 38) : pgroundup sz = vaOf (pages sz) := by
  have hle : pages sz ≤ 2 ^ 26 := pages_le (by omega)
  apply BitVec.eq_of_toNat_eq
  rw [toNat_pgroundup, toNat_vaOf hle, pages, Nat.mod_eq_of_lt (by omega)]

theorem pages_vaOf (hv : v ≤ 2 ^ 26) : pages (vaOf v) = v := by
  rw [pages, toNat_vaOf hv]
  omega

theorem toNat_trapframe : trapframe.toNat = userPages * 4096 := by decide

/-- The pages between two sizes, counted in an `int`. -/
theorem toNat_npages (hv : v ≤ b) (hb : b ≤ 2 ^ 26) :
    ((((vaOf b - vaOf v) / 4096#64).setWidth 32).signExtend 64).toNat = b - v := by
  have h4096 : (4096#64).toNat = 4096 := rfl
  have hdiv : ((vaOf b - vaOf v) / 4096#64).toNat = b - v := by
    rw [BitVec.toNat_udiv, BitVec.toNat_sub_of_le, toNat_vaOf hb, toNat_vaOf (hv.trans hb), h4096]
    · omega
    · rw [BitVec.le_def, toNat_vaOf hb, toNat_vaOf (hv.trans hb)]
      omega
  have hset : (((vaOf b - vaOf v) / 4096#64).setWidth 32).toNat = b - v := by
    rw [BitVec.toNat_setWidth, hdiv, Nat.mod_eq_of_lt (by omega)]
  rw [BitVec.signExtend_eq_setWidth_of_msb_false, BitVec.toNat_setWidth, hset, Nat.mod_eq_of_lt (by omega)]
  rw [BitVec.msb_eq_decide, hset]
  simp
  omega

/-! ## The address space of a process -/

structure Image (s : Phys) (root : Frame) (sz : BitVec 64) (ext : P → Option Frame) : Prop where
  space : Space userPages s root ext []
  size : sz ≤ trapframe
  top : ∀ v, pages sz ≤ v → v < userPages → leaf s.mem root (vaOf v) = none

/-- What a change of the size from `sz` to `sz'` does to the mappings and to the pages below both. -/
structure Resized (s t : Phys) (root : Frame) (sz sz' : BitVec 64) : Prop where
  leaf : ∀ va < maxva, (vpn va < pages sz ↔ vpn va < pages sz') → leaf t.mem root va = leaf s.mem root va
  gone : ∀ va < maxva, pages sz' ≤ vpn va → vpn va < pages sz → Vm.leaf t.mem root va = none
  freed : sz' ≤ sz → ∀ f, f ∈ t.freelist ↔
    f ∈ s.freelist ∨ ∃ v, (pages sz' ≤ v ∧ v < pages sz) ∧ leafFrames userPages s.mem root v = some f
  contents : ∀ v f, v < pages sz' → leafFrames userPages s.mem root v = some f → t.mem f = s.mem f

/-- The pages between the sizes are new, and zero. -/
def Grown (s t : Phys) (root : Frame) (sz sz' : BitVec 64) : Prop :=
  ∀ v, pages sz ≤ v → v < pages sz' → ∃ f ∈ s.freelist,
    leaf t.mem root (vaOf v) = some (pa2pte f.addr ||| (pteR ||| pteU ||| pteW) ||| pteV) ∧ t.mem f = fun _ => 0

theorem pages_le_userPages (h : sz ≤ trapframe) : pages sz ≤ userPages := by
  refine pages_le ?_
  rw [← toNat_trapframe]
  exact h

theorem Unmapped.leafFrames_eq {gone : Nat → Prop} [DecidablePred gone] (h : Unmapped n s t root ext held gone)
    (v : Nat) : leafFrames n t.mem root v = if gone v then none else leafFrames n s.mem root v := by
  by_cases hv : v < n
  · have hlt := hv.trans_le h.space.bound
    rw [leafFrames_of_lt hv, h.leaf _ (vaOf_lt hlt), vpn_vaOf hlt, leafFrames_of_lt hv]
    split
    · rw [Option.map_none]
    · rfl
  · rw [leafFrames, leafFrames, if_neg hv, if_neg hv, ite_self]

/-- The pages that have been unmapped are free. -/
theorem Unmapped.free {gone : Nat → Prop} [DecidablePred gone] (hs : Space n s root ext [])
    (h : Unmapped n s t root ext [] gone) :
    f ∈ t.freelist ↔ f ∈ s.freelist ∨ ∃ v, gone v ∧ leafFrames n s.mem root v = some f := by
  have hstay : ∀ {v}, leafFrames n t.mem root v = some f → ¬ gone v ∧ leafFrames n s.mem root v = some f := by
    intro v hv
    rw [h.leafFrames_eq] at hv
    split at hv
    · cases hv
    · exact ⟨‹_›, hv⟩
  constructor
  · intro hf
    by_contra hc
    rw [not_or] at hc
    rcases (hs.tree.exact.used_iff f).mp hc.1 with ⟨p | v | q, hp⟩ | hmem
    · exact h.space.tree.not_free (h.keeps.table p f hp) hf
    · refine h.space.not_free (v := v) ?_ hf
      rw [h.leafFrames_eq, if_neg fun hg => hc.2 ⟨v, hg, hp⟩]
      exact hp
    · exact h.space.not_free_ext hp hf
    · exact absurd hmem List.not_mem_nil
  · intro hf
    by_contra hc
    rcases (h.space.tree.exact.used_iff f).mp hc with ⟨p | v | q, hp⟩ | hmem
    · rw [h.table] at hp
      rcases hf with hf | ⟨v, -, hv⟩
      · exact hs.tree.not_free hp hf
      · exact hs.ne_table hv p hp
    · obtain ⟨hne, hv⟩ := hstay hp
      rcases hf with hf | ⟨v', hg, hv'⟩
      · exact hs.not_free hv hf
      · rw [hs.once hv hv'] at hne
        exact hne hg
    · rcases hf with hf | ⟨v, -, hv⟩
      · exact hs.not_free_ext hp hf
      · exact hs.ne_ext hv q hp
    · exact absurd hmem List.not_mem_nil

/-- What `uvmalloc()` wants to map. -/
def zeroPages (perm : BitVec 64) (_ : Nat) : Option (BitVec 64 × (Nat → UInt8)) := some (perm, fun _ => 0)

theorem zeroPages_perm (hperm : perm.toNat < 2 ^ 10) (v : Nat) (perm' : BitVec 64) (x : Nat → UInt8)
    (h : zeroPages perm v = some (perm', x)) : perm'.toNat < 2 ^ 10 := by
  cases h
  exact hperm

/-- Memory has grown, page by page. -/
theorem Image.filled (h : Image s root sz ext) (hlt : sz < sz') (hsz : sz' ≤ trapframe)
    (ht : Filled userPages s t root ext (pages sz) (pages sz') (zeroPages (pteR ||| pteU ||| pteW))) :
    Image t root sz' ext ∧ Resized s t root sz sz' ∧ Grown s t root sz sz' := by
  have hmono : pages sz ≤ pages sz' := pages_mono (Nat.le_of_lt hlt)
  have hbound := h.space.bound
  refine ⟨⟨ht.space, hsz, fun v hv hlt => ?_⟩, ⟨fun va hva hiff => ht.rest va hva (by omega),
    fun va hva hge hlt => absurd hlt (by omega), fun hge => absurd hge (BitVec.not_le.mpr hlt),
    fun v f hv hf => ht.keeps.leaf hf⟩, fun v hv hlt => ht.page v _ _ hv hlt rfl⟩
  have hlt' := hlt.trans_le hbound
  rw [ht.rest _ (vaOf_lt hlt') (by rw [vpn_vaOf hlt']; omega), h.top v (hmono.trans hv) hlt]

/-- Memory has shrunk. -/
theorem Image.unmapped (h : Image s root sz ext) (hle : sz' ≤ sz)
    (ht : Unmapped userPages s t root ext [] fun v => pages sz' ≤ v ∧ v < pages sz) :
    Image t root sz' ext ∧ Resized s t root sz sz' := by
  have hmono : pages sz' ≤ pages sz := pages_mono (BitVec.le_def.mp hle)
  have hbound := h.space.bound
  refine ⟨⟨ht.space, BitVec.le_trans hle h.size, fun v hv hlt => ?_⟩, ⟨fun va hva hiff => ?_, fun va hva hge hlt => ?_,
    fun _ f => Unmapped.free h.space ht, fun v f hv hf => ht.contents v f (by omega) hf⟩⟩
  · have hlt' := hlt.trans_le hbound
    rw [ht.leaf _ (vaOf_lt hlt'), vpn_vaOf hlt']
    split
    · rfl
    · exact h.top v (by omega) hlt
  · rw [ht.leaf va hva, if_neg (by omega)]
  · rw [ht.leaf va hva, if_pos ⟨hge, hlt⟩]

/-! ## User pages come and go -/

variable [DecidableEq P]

theorem uvmdealloc_spec (h : Space n s root ext held) (hold : oldsz.toNat ≤ n * 4096) :
    Runs R (uvmdealloc root oldsz newsz) s fun r t => r = (if oldsz ≤ newsz then oldsz else newsz) ∧
      Unmapped n s t root ext held fun v => pages newsz ≤ v ∧ v < pages oldsz := by
  have hn := h.bound
  have hpages : pages oldsz ≤ n := pages_le hold
  unfold uvmdealloc
  by_cases hle : oldsz ≤ newsz
  · have hmono := pages_mono (BitVec.le_def.mp hle)
    rw [if_pos hle, if_pos hle]
    exact .pure ⟨rfl, .refl h fun v => by omega⟩
  · have hlt : newsz.toNat < oldsz.toNat := by
      rw [BitVec.le_def] at hle
      omega
    have hmono := pages_mono (Nat.le_of_lt hlt)
    rw [if_neg hle, if_neg hle, pgroundup_eq (by omega : oldsz.toNat ≤ 2 ^ 38),
      pgroundup_eq (by omega : newsz.toNat ≤ 2 ^ 38)]
    by_cases hup : vaOf (pages newsz) < vaOf (pages oldsz)
    · rw [if_pos hup]
      have hcount := toNat_npages hmono (hpages.trans hn)
      refine (h.uvmunmap _ _ (by omega)).seq fun _ t ht => .pure ⟨rfl, ht.congr fun v => ?_⟩
      rw [hcount]
      omega
    · rw [if_neg hup]
      rw [BitVec.lt_def, toNat_vaOf (hmono.trans (hpages.trans hn)), toNat_vaOf (hpages.trans hn)] at hup
      exact .pure ⟨rfl, .refl h fun v => by omega⟩

omit [DecidableEq P] in
/-- Each page that is mapped takes at most three free pages. -/
theorem Extended.spent {x : Nat → UInt8} (h : Extended n s t root ext held v r x perm) :
    s.freelist.length ≤ t.freelist.length + 3 ∧ t.freelist.length < s.freelist.length := by
  have hle := missing_le s.mem root (vaOf v)
  have hpos : 0 < s.freelist.length := List.length_pos_of_mem (List.mem_of_mem_head? h.fresh)
  rw [h.free, List.length_drop]
  omega

/-- The loop of `uvmalloc()`: it ends before page `n`, since there are that many pages, or since memory runs out. -/
theorem allocLoop_spec {xperm : BitVec 64} (hperm : (pteR ||| pteU ||| xperm).toNat < 2 ^ 10)
    (hs : Space n s root ext []) (k : Nat) (h : Filled n s t root ext b v (zeroPages (pteR ||| pteU ||| xperm)))
    (hb : b ≤ v) (hk : v + k ≤ n ∨ v + t.freelist.length < n)
    (hempty : ∀ v', v ≤ v' → v' < v + k → v' < n → leaf s.mem root (vaOf v') = none) :
    Runs R (allocLoop root (vaOf b) xperm k (vaOf v)) t fun a u =>
      (a = true ∧ v + k ≤ n ∧ Filled n s u root ext b (v + k) (zeroPages (pteR ||| pteU ||| xperm)) ∧
          t.freelist.length ≤ u.freelist.length + 3 * k) ∨
        (a = false ∧ Restored n s u root ext ∧ t.freelist.length < 3 * k) := by
  have hn := hs.bound
  induction k generalizing v t with
  | zero => exact .pure (.inl ⟨rfl, by omega, h, Nat.le_refl _⟩)
  | succ k ih =>
    have hfail : ∀ {u}, v ≤ n → t.freelist.length < 3 * (k + 1) →
        Filled n s u root ext b v (zeroPages (pteR ||| pteU ||| xperm)) →
        Runs R (uvmdealloc root (vaOf v) (vaOf b) >>= fun _ => pure false) u fun a u =>
          (a = true ∧ v + (k + 1) ≤ n ∧ Filled n s u root ext b (v + (k + 1)) (zeroPages (pteR ||| pteU ||| xperm)) ∧
              t.freelist.length ≤ u.freelist.length + 3 * (k + 1)) ∨
            (a = false ∧ Restored n s u root ext ∧ t.freelist.length < 3 * (k + 1)) := by
      intro u hv hshort hu
      have hold : (vaOf v).toNat ≤ n * 4096 := by
        rw [toNat_vaOf (hv.trans hn)]
        omega
      refine (uvmdealloc_spec hu.space hold).seq fun _ w hw => .pure (.inr ⟨rfl, hu.undo ?_, hshort⟩)
      rw [pages_vaOf (by omega), pages_vaOf (by omega)] at hw
      exact hw.2
    unfold allocLoop
    refine kalloc_bind (fun hnil => hfail (by omega) (by rw [hnil, List.length_nil]; omega) h) fun r rest hfree =>
      memset_bind ?_
    have hpos : 0 < t.freelist.length := by rw [hfree]; exact Nat.succ_pos _
    have hlt : v < n := by omega
    have hlt' := hlt.trans_le hn
    have hnone : leaf t.mem root (vaOf v) = none := by
      rw [h.rest _ (vaOf_lt hlt') (by rw [vpn_vaOf hlt']; omega), hempty v (Nat.le_refl v) (by omega) hlt]
    dsimp only
    rw [fill_fill]
    refine h.space.mapFresh_bind hfree hlt hnone hperm (fun u hu => ?_) fun u hu => ?_
    · have hle := missing_le t.mem root (vaOf v)
      have hshort := hu.short
      exact hfail (Nat.le_of_lt hlt) (by omega) (h.stop (zeroPages_perm hperm) (Nat.le_of_lt hlt) hu)
    · have hnext := h.next (zeroPages_perm hperm) hs hb hlt (hempty v (Nat.le_refl v) (by omega) hlt) rfl hu
      obtain ⟨hspent, hless⟩ := hu.spent
      have hrun := ih hnext (Nat.le_succ_of_le hb) (by omega) fun v' hle hlt => hempty v' (by omega) (by omega)
      rw [vaOf_succ]
      refine hrun.mono fun a w hw => ?_
      rw [show v + (k + 1) = v + 1 + k by omega]
      rcases hw with ⟨ha, hle, hfill, hlen⟩ | ⟨ha, hrest, hlen⟩
      · exact .inl ⟨ha, hle, hfill, by omega⟩
      · exact .inr ⟨ha, hrest, by omega⟩

theorem uvmalloc_spec {xperm : BitVec 64} (hperm : (pteR ||| pteU ||| xperm).toNat < 2 ^ 10)
    (hs : Space n s root ext []) (hle : oldsz ≤ newsz) (hold : oldsz.toNat ≤ n * 4096)
    (hnew : newsz.toNat ≤ n * 4096 ∨ pages oldsz + s.freelist.length < n)
    (hempty : ∀ v, pages oldsz ≤ v → v < pages newsz → v < n → leaf s.mem root (vaOf v) = none) :
    Runs R (uvmalloc root oldsz newsz xperm) s fun r t =>
      (r = newsz ∧ newsz.toNat ≤ n * 4096 ∧
          Filled n s t root ext (pages oldsz) (pages newsz) (zeroPages (pteR ||| pteU ||| xperm)) ∧
          s.freelist.length ≤ t.freelist.length + 3 * (pages newsz - pages oldsz)) ∨
        (r = 0 ∧ Restored n s t root ext ∧ s.freelist.length < 3 * (pages newsz - pages oldsz)) := by
  have hn := hs.bound
  have hmono := pages_mono (BitVec.le_def.mp hle)
  have hsz : oldsz.toNat ≤ newsz.toNat := hle
  unfold uvmalloc
  rw [if_neg (BitVec.not_lt.mpr hle)]
  dsimp only
  rw [pgroundup_eq (by omega)]
  have hpages := pages_le hold
  have hturns : turns (vaOf (pages oldsz)) newsz = pages newsz - pages oldsz := by
    rw [turns, toNat_vaOf (by omega), pgsize, pages, pages]
    omega
  rw [hturns]
  have hk : pages oldsz + (pages newsz - pages oldsz) ≤ n ∨ pages oldsz + s.freelist.length < n := by
    rw [Nat.add_sub_cancel' hmono]
    exact hnew.imp_left pages_le
  have hloop := allocLoop_spec (R := R) hperm hs (pages newsz - pages oldsz) (.refl hs (pages oldsz)) (Nat.le_refl _) hk
    fun v hle hlt => hempty v hle (by omega)
  refine hloop.seq fun a t ht => ?_
  rw [Nat.add_sub_cancel' hmono] at ht
  rcases ht with ⟨rfl, hfit, ht⟩ | ⟨rfl, ht⟩
  · rw [if_pos rfl]
    refine .pure (.inl ⟨rfl, ?_, ht⟩)
    rw [pages] at hfit
    omega
  · rw [if_neg (by decide)]
    exact .pure (.inr ⟨rfl, ht⟩)

/-! ## `sbrk()` -/

omit [DecidableEq P] in
/-- An `int` is added to a size. -/
theorem toNat_add_int (sz : BitVec 64) (n : BitVec 32) :
    ((sz + n.signExtend 64).toNat : Int) = (sz.toNat + n.toInt) % 2 ^ 64 := by
  rw [BitVec.toNat_add, BitVec.signExtend, BitVec.toNat_ofInt]
  omega

omit [DecidableEq P] in
/-- A larger size alone changes nothing. -/
theorem Resized.of_le (hle : sz ≤ sz') : Resized s s root sz sz' := by
  have hmono := pages_mono (BitVec.le_def.mp hle)
  refine ⟨fun _ _ _ => rfl, fun va _ hge hlt => absurd hlt (by omega), fun _ f => ⟨.inl, ?_⟩, fun _ _ _ _ => rfl⟩
  rintro (hf | ⟨v, ⟨hge, hlt⟩, -⟩)
  · exact hf
  · exact absurd hlt (by omega)

omit [DecidableEq P] in
theorem Image.restored (h : Image s root sz ext) (ht : Restored userPages s t root ext) : Image t root sz ext := by
  refine ⟨ht.space, h.size, fun v hv hlt => ?_⟩
  rw [ht.leaf _ (vaOf_lt (hlt.trans_le h.space.bound)), h.top v hv hlt]

/-- What `growproc()` does. -/
theorem growproc_spec (h : Image s root sz ext) (n : BitVec 32) :
    Runs R (growproc root sz n) s fun r u => Image u root r.2 ext ∧ Keeps s u root ext [] ∧
      ((r.1 = -1 ∧ 0 < n.toInt ∧ r.2 = sz ∧ Restored userPages s u root ext) ∨
        (r.1 = 0 ∧ (0 ≤ sz.toNat + n.toInt → (r.2.toNat : Int) = sz.toNat + n.toInt) ∧
          (sz.toNat + n.toInt < 0 → r.2 = sz) ∧ Resized s u root sz r.2 ∧ Grown s u root sz r.2)) := by
  have hadd := toNat_add_int sz n
  have hsize : sz.toNat ≤ trapframe.toNat := h.size
  have hlow := BitVec.le_toInt n
  have hhigh := BitVec.toInt_lt (x := n)
  rw [toNat_trapframe, userPages] at hsize
  unfold growproc
  refine .ite (fun hpos => ?_) fun hnpos => ?_
  · have hnat : ((sz + n.signExtend 64).toNat : Int) = sz.toNat + n.toInt := by omega
    have hlt : sz < sz + n.signExtend 64 := by
      rw [BitVec.lt_def]
      omega
    refine .ite (fun htop => ?_) fun htop => ?_
    · exact .pure ⟨h, .refl .., .inl ⟨rfl, hpos, rfl, h.space, .refl .., fun _ _ => rfl⟩⟩
    · have hle : sz + n.signExtend 64 ≤ trapframe := BitVec.not_lt.mp htop
      have hnew : (sz + n.signExtend 64).toNat ≤ userPages * 4096 := by
        rw [← toNat_trapframe]
        exact hle
      have hpages := pages_le_userPages hle
      have hold : sz.toNat ≤ userPages * 4096 := by
        rw [userPages]
        exact hsize
      refine (uvmalloc_spec (by decide) h.space (BitVec.le_of_lt hlt) hold (.inl hnew) fun v hge _ hlt =>
        h.top v hge hlt).seq
        fun sz' u hu => ?_
      rcases hu with ⟨rfl, -, hu, -⟩ | ⟨rfl, hu, -⟩
      · have hne : sz + n.signExtend 64 ≠ 0 := by
          intro hc
          rw [hc] at hlt
          exact absurd hlt (by rw [BitVec.lt_def]; exact Nat.not_lt_zero _)
        obtain ⟨himage, hresized, hgrown⟩ := h.filled hlt hle hu
        rw [if_neg hne]
        exact .pure ⟨himage, hu.keeps.outer, .inr ⟨rfl, fun _ => hnat, fun hneg => absurd hneg (by omega),
          hresized, hgrown⟩⟩
      · rw [if_pos rfl]
        exact .pure ⟨h.restored hu, hu.keeps.outer, .inl ⟨rfl, hpos, rfl, hu⟩⟩
  · refine .ite (fun hneg => ?_) fun hzero => ?_
    · have hold : sz.toNat ≤ userPages * 4096 := by
        rw [userPages]
        exact hsize
      have hgrown : ∀ {u sz'}, sz' ≤ sz → Grown s u root sz sz' := by
        intro u sz' hle v hge hlt
        exact absurd hlt (by have := pages_mono (BitVec.le_def.mp hle); omega)
      refine (uvmdealloc_spec h.space hold).seq fun sz' u ⟨hsz', hu⟩ => ?_
      by_cases hle : sz ≤ sz + n.signExtend 64
      · -- the sum has wrapped around: nothing is below zero
        rw [if_pos hle] at hsz'
        have hmono := pages_mono (BitVec.le_def.mp hle)
        subst hsz'
        obtain ⟨himage, hresized⟩ := h.unmapped (BitVec.le_refl sz') (hu.congr fun v => by omega)
        rw [BitVec.le_def] at hle
        exact .pure ⟨himage, hu.keeps, .inr ⟨rfl, fun hge => absurd hge (by omega), fun _ => rfl, hresized,
          hgrown (BitVec.le_refl sz')⟩⟩
      · rw [if_neg hle] at hsz'
        have hle' : sz + n.signExtend 64 ≤ sz := BitVec.le_of_lt (BitVec.not_le.mp hle)
        subst hsz'
        obtain ⟨himage, hresized⟩ := h.unmapped hle' hu
        rw [BitVec.le_def] at hle
        have hnat : ((sz + n.signExtend 64).toNat : Int) = sz.toNat + n.toInt := by omega
        exact .pure ⟨himage, hu.keeps, .inr ⟨rfl, fun _ => hnat, fun hlt => absurd hlt (by omega),
        hresized, hgrown hle'⟩⟩
    · have hn : n.toInt = 0 := by omega
      have hnat : (sz.toNat : Int) = sz.toNat + n.toInt := by omega
      refine .pure ⟨h, .refl .., .inr ⟨rfl, fun _ => hnat, fun _ => rfl, .of_le (BitVec.le_refl sz),
        fun v hge hlt => ?_⟩⟩
      exact absurd hlt (Nat.not_lt.mpr hge)

/-- **`sbrk()` grows and shrinks user memory** for any increment: it fails with everything as before, or it returns the
old size, and the sizes and mappings are what they should be. -/
theorem sbrk_grows_and_shrinks (h : Image s root sz ext) (n t : BitVec 32) :
    Runs (fun _ => False) (sysSbrk root sz n t) s fun r u => Image u root r.2 ext ∧ Keeps s u root ext [] ∧
      ((r.1 = -1 ∧ 0 < n.toInt ∧ (t ≠ sbrkEager → (trapframe.toNat : Int) < sz.toNat + n.toInt) ∧ r.2 = sz ∧
          Restored userPages s u root ext ∧ ∀ f ∈ s.freelist, f ∈ u.freelist ∨ ∃ p, tables u.mem root p = some f) ∨
        (r.1 = sz ∧ (0 ≤ sz.toNat + n.toInt → (r.2.toNat : Int) = sz.toNat + n.toInt) ∧
          (sz.toNat + n.toInt < 0 → r.2 = sz) ∧ Resized s u root sz r.2 ∧ (t = sbrkEager → Grown s u root sz r.2) ∧
          (t ≠ sbrkEager → 0 ≤ n.toInt → u = s))) := by
  have hadd := toNat_add_int sz n
  have hsize : sz.toNat ≤ trapframe.toNat := h.size
  have hlow := BitVec.le_toInt n
  have hhigh := BitVec.toInt_lt (x := n)
  have htrap := toNat_trapframe
  rw [userPages] at htrap
  unfold sysSbrk
  refine .ite (fun heager => ?_) fun hlazy => ?_
  · refine (growproc_spec h n).seq fun r u ⟨himage, hkeeps, hcase⟩ => ?_
    rcases hcase with ⟨hr, hpos, hsz, hu⟩ | ⟨hr, hpos, hneg, hresized, hgrown⟩
    · rw [hr, if_pos (by decide)]
      refine .pure ⟨himage, hkeeps, .inl ⟨rfl, hpos, fun ht => ?_, hsz, hu, fun f hf => hu.free h.space hf⟩⟩
      exact absurd (heager.resolve_left ht) (by omega)
    · rw [hr, if_neg (by decide)]
      refine .pure ⟨himage, hkeeps, .inr ⟨rfl, hpos, hneg, hresized, fun _ => hgrown, fun ht hge => ?_⟩⟩
      exact absurd (heager.resolve_left ht) (by omega)
  · obtain ⟨ht, hnneg⟩ := not_or.mp hlazy
    have hnat : ((sz + n.signExtend 64).toNat : Int) = sz.toNat + n.toInt := by omega
    refine .ite (fun hwrap => ?_) fun _ => .ite (fun htop => ?_) fun htop => ?_
    · rw [BitVec.lt_def] at hwrap
      omega
    · rw [BitVec.lt_def] at htop
      exact .pure ⟨h, .refl .., .inl ⟨rfl, by omega, fun _ => by omega, rfl, ⟨h.space, .refl .., fun _ _ => rfl⟩,
        fun f hf => .inl hf⟩⟩
    · have hle : sz ≤ sz + n.signExtend 64 := by
        rw [BitVec.le_def]
        omega
      have hmono := pages_mono (BitVec.le_def.mp hle)
      have himage : Image s root (sz + n.signExtend 64) ext :=
        ⟨h.space, BitVec.not_lt.mp htop, fun v hge hlt => h.top v (hmono.trans hge) hlt⟩
      exact .pure ⟨himage, .refl .., .inr ⟨rfl, fun _ => hnat, fun hneg => absurd hneg (by omega), .of_le hle,
        fun heager => absurd heager ht, fun _ _ => rfl⟩⟩

omit [DecidableEq P] in
/-- There are processes of one page, with any contents. -/
theorem exists_image (x : Nat → UInt8) : ∃ s, Image s 7 4096#64 (others blank 7) ∧ s.mem 1 = x ∧
    leaf s.mem 7 (vaOf 0) = some (pa2pte (Frame.addr 1) ||| (pteR ||| pteU ||| pteW) ||| pteV) := by
  obtain ⟨s, hs⟩ := exists_page (n := userPages) x (pteR ||| pteU ||| pteW) (by decide) (by decide) (by decide)
  refine ⟨s, ⟨hs.space, by decide, fun v hv hlt => ?_⟩, hs.content, ?_⟩
  · have hone : pages 4096#64 = 1 := by decide
    have hlt' : v < 2 ^ 26 := hlt.trans_le hs.space.bound
    rw [hs.leaf _ (vaOf_lt hlt'), vpn_vaOf hlt', if_neg (by omega), leaf_of_empty (blank_empty 7)]
  · rw [hs.leaf _ (vaOf_lt (by decide)), vpn_vaOf (by decide), if_pos rfl]

/-- The only page is given back. -/
theorem sbrk_grows_and_shrinks_toZero : ∃ s, Image s 7 4096#64 (others blank 7) ∧ leaf s.mem 7 (vaOf 0) ≠ none ∧
    Runs (fun _ => False) (sysSbrk 7 4096#64 (-4096) sbrkEager) s fun r u =>
      r.1 = 4096#64 ∧ r.2 = 0 ∧ leaf u.mem 7 (vaOf 0) = none := by
  obtain ⟨s, hs, -, hleaf⟩ := exists_image fun _ => 0
  have hn : (-4096 : BitVec 32).toInt = -4096 := by decide
  have h4096 : (4096#64).toNat = 4096 := rfl
  refine ⟨s, hs, ?_, (sbrk_grows_and_shrinks hs (-4096) sbrkEager).mono fun r u ⟨_, _, hcase⟩ => ?_⟩
  · rw [hleaf]
    exact Option.some_ne_none _
  · rcases hcase with ⟨-, hpos, -⟩ | ⟨hr, hsize, -, hresized, -⟩
    · rw [hn] at hpos
      exact absurd hpos (by decide)
    · rw [hn, h4096] at hsize
      have hzero : r.2 = 0 := BitVec.eq_of_toNat_eq (Int.ofNat.inj (hsize (by decide)))
      refine ⟨hr, hzero, hresized.gone _ (vaOf_lt (by decide)) ?_ ?_⟩
      · rw [hzero]
        exact Nat.zero_le _
      · rw [vpn_vaOf (by decide)]
        decide

end

end Xv6.Vm
