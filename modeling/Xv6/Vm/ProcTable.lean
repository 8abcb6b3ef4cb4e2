import Xv6.Vm.Free

/-!
# Page tables of processes

`proc_pagetable()` and `proc_freepagetable()` of `proc.c`: a page table with the trampoline and the trapframe and no
user memory, and the way back.

* `Blank s t root tramp tf ext held` : `root` is such a page table, all of whose pages were free in `s`;
* `procPagetable_spec` : a page table is made, or all pages taken for it are free again;
* `procFreepagetable_spec` : all pages of the page table and all user pages are free.
-/

namespace Xv6.Vm
open Radix Alloc Hoare Function

/-! ## Programs -/

/-- `proc_pagetable()` for the trapframe `tf`; `tramp` is the page of the trampoline code. -/
def procPagetable (tramp tf : Frame) : VmM (Option Frame) := do
  match ← uvmcreate with
  | none => return none
  | some pagetable =>
    if (← mappages pagetable trampoline 4096#64 tramp (pteR ||| pteX)) < 0 then
      uvmfree pagetable 0
      return none
    else if (← mappages pagetable trapframe 4096#64 tf (pteR ||| pteW)) < 0 then
      uvmunmap pagetable trampoline 1 false
      uvmfree pagetable 0
      return none
    else return some pagetable

def procFreepagetable (pagetable : Frame) (sz : BitVec 64) : VmM Unit := do
  uvmunmap pagetable trampoline 1 false
  uvmunmap pagetable trapframe 1 false
  uvmfree pagetable sz

theorem uvmfree_zero (pagetable : Frame) : uvmfree pagetable 0 = freewalk 3 pagetable := by
  rw [uvmfree, if_neg (by decide)]

theorem trampoline_eq : trampoline = vaOf (2 ^ 26 - 1) := by decide

theorem trapframe_eq : trapframe = vaOf userPages := by decide

section
variable {P : Type} {s t u : Phys} {root tramp tf : Frame} {ext : P → Option Frame} {held : List Frame}
  {f r : Frame} {va sz : BitVec 64} {n v : Nat} {R : VmPanic → Prop}
  {want want' : Nat → Option (BitVec 64)} {pa : Frame} {perm : BitVec 64}

/-! ## Making -/

/-- A page that the running function holds becomes an empty page table. -/
theorem Tree.create (h : Exact s.Used ext (root :: held)) (hnodup : s.freelist.Nodup)
    (hempty : ∀ i, child s.mem root i = none) : Tree s root ext held := by
  classical
  have htables : tables s.mem root = update (fun _ => none) [] (some root) := by
    funext p
    by_cases hp : p = []
    · rw [hp, update_self, tables, node_nil]
    · rw [update_of_ne hp, Option.eq_none_iff_forall_ne_some]
      exact fun f hf => hp (node_of_empty hempty hf).1
  have hnone : Exact s.Used (Sum.elim (fun _ : List (Fin 512) => none) ext) (root :: held) := by
    refine h.embed Sum.inr (fun q => Sum.elim_inr ..) ?_
    rintro (p | q) f hf
    · cases hf
    · exact ⟨q, rfl⟩
  have hroot := hnone.attach (p := Sum.inl []) (Sum.elim_inl ..)
  rw [Sum.update_elim_inl, ← htables] at hroot
  exact ⟨hroot, hnodup⟩

/-- A page table that maps page `v` as `want v` says; its pages were free in `s`, or its own. -/
structure Made (s t : Phys) (root : Frame) (ext : P → Option Frame) (held : List Frame)
    (want : Nat → Option (BitVec 64)) : Prop where
  tree : Tree t root ext held
  sound : Sound t root
  low : Low t.mem root
  kend : t.kend = s.kend
  leaf : ∀ va < maxva, leaf t.mem root va = want (vpn va)
  mem : ∀ f, (∃ q, ext q = some f) ∨ f ∈ held → t.mem f = s.mem f

theorem Made.edits (h : Made s t root ext held want) (he : Edits t u root ext held)
    (hleaf : ∀ va < maxva, Vm.leaf u.mem root va = want' (vpn va)) : Made s u root ext held want' :=
  ⟨he.tree, he.sound h.sound, he.keeps.low h.low, he.keeps.kend.trans h.kend, hleaf,
    fun f hf => (he.keeps.mem f hf).trans (h.mem f hf)⟩

theorem uvmcreate_spec (h : Exact s.Used ext held) (hs : Heap s) :
    Runs R uvmcreate s fun a t => (a = none ∧ t = s ∧ s.freelist = []) ∨
      ∃ root, a = some root ∧ Made s t root ext held (fun _ => none) ∧ s.freelist.length = t.freelist.length + 1 := by
  unfold uvmcreate
  refine kalloc_bind (fun hnil => .pure (.inl ⟨rfl, rfl, hnil⟩)) fun r rest hfree => ?_
  refine memset_bind (.pure (.inr ⟨r, rfl, ?_, congrArg List.length hfree⟩))
  dsimp only
  rw [fill_fill]
  have hmem : r ∈ s.freelist := hfree ▸ List.mem_cons_self
  have hused := used_take hfree hs.nodup (s.mem.fill r 0)
  have hempty : ∀ i, child (s.mem.fill r 0) r i = none := fun i => by
    rw [child, pte_fill_zero, valid_zero, Option.map_none]
  have hnodup : rest.Nodup := (List.nodup_cons.mp (hfree ▸ hs.nodup)).2
  refine ⟨Tree.create (h.alloc (fun hc => hc hmem) hused) hnodup hempty, ⟨?_, ?_, ?_⟩, ?_, rfl, fun va _ =>
    leaf_of_empty hempty, fun f hf => fill_of_ne ?_⟩
  · exact fun f hf => hs.pool f (hfree ▸ List.mem_cons_of_mem r hf)
  · intro p f hf
    rw [(node_of_empty hempty hf).2]
    exact hs.pool r hmem
  · intro p f i w _ hf hw
    have hnone := hempty i
    rw [(node_of_empty hempty hf).2] at hw
    rw [child, hw] at hnone
    cases hnone
  · exact fun i p f hf => absurd (node_of_empty hempty hf).1 (List.cons_ne_nil i p)
  · rintro rfl
    rcases hf with ⟨q, hq⟩ | hf
    · exact h.used_of_own hq hmem
    · exact h.used_of_held hf hmem

section
variable [DecidableEq P]

theorem Made.mappages (h : Made s t root ext held want) (hv : v < 2 ^ 26) (hnone : want v = none) :
    Runs R (mappages root (vaOf v) 4096#64 pa perm) t fun a u =>
      (a = 0 ∧ Made s u root ext held (update want v (some (pa2pte pa.addr ||| perm ||| pteV))) ∧
          t.freelist.length ≤ u.freelist.length + 2) ∨
        (a = -1 ∧ Made s u root ext held want ∧ t.freelist.length < 2) := by
  have hmissing := missing_le t.mem root (vaOf v)
  have hleaf : Vm.leaf t.mem root (vaOf v) = none := by rw [h.leaf _ (vaOf_lt hv), vpn_vaOf hv, hnone]
  refine (mappages_spec h.tree (vaOf_lt hv) (vaOf_aligned (Nat.le_of_lt hv)) fun hc => absurd hleaf hc).mono
    fun a u hpost => ?_
  obtain ⟨hedits, ⟨ha, -, hfree, hmap, -⟩ | ⟨ha, hshort, -, hsame, -⟩⟩ := hpost
  · refine .inl ⟨ha, h.edits hedits fun va hva => ?_, ?_⟩
    · rw [hmap va hva, vpn_vaOf hv, h.leaf va hva, update_apply]
    · rw [hfree, List.length_drop]
      omega
  · exact .inr ⟨ha, h.edits hedits fun va hva => (hsame va).trans (h.leaf va hva), by omega⟩

omit [DecidableEq P] in
/-- One page is unmapped and stays with its owner. -/
theorem Made.uvmunmap (h : Made s t root ext held want) (hv : v < 2 ^ 26) :
    Runs R (uvmunmap root (vaOf v) 1 false) t fun _ u => Made s u root ext held (update want v none) := by
  have haligned : vaOf v % 4096#64 = 0 := by
    apply BitVec.eq_of_toNat_eq
    rw [BitVec.toNat_umod]
    exact vaOf_aligned (Nat.le_of_lt hv)
  unfold Vm.uvmunmap
  refine panicIf_bind (fun hc => absurd haligned hc) fun _ => ?_
  rw [turns_vaOf (show v + (1 : BitVec 64).toNat ≤ 2 ^ 26 from hv)]
  have hzero : vaOf v + BitVec.ofNat 64 (0 * pgsize) = vaOf v := by rw [pgsize, vaOf_add, Nat.add_zero]
  show Runs R (forM [0] _) t _
  rw [List.forM_cons, List.forM_nil, hzero]
  refine (unmapPage_keep h.tree (vaOf_lt hv)).seq fun _ u hpost => .pure ?_
  refine h.edits hpost.1 fun va hva => ?_
  rw [hpost.2.2 va hva, vpn_vaOf hv, h.leaf va hva, update_apply]

theorem Made.freewalk (h : Made s t root ext held want) (hw : ∀ v < 2 ^ 26, want v = none) :
    Runs R (freewalk 3 root) t fun _ u => Freed s u ext held := by
  have hbare : Bare t root := bare_of_leaf h.sound h.low fun v hv => by
    rw [h.leaf _ (vaOf_lt hv), vpn_vaOf hv, hw v hv]
  refine (freewalk_frees h.tree hbare).mono fun _ u hu => ?_
  exact ⟨hu.kend.trans h.kend, hu.exact, hu.heap, fun f hf => (hu.mem f hf).trans (h.mem f hf)⟩

/-- The entries for trampoline and trapframe. -/
def topPages (tramp tf : Frame) : Nat → Option (BitVec 64) :=
  update (update (fun _ => none) (2 ^ 26 - 1) (some (pa2pte tramp.addr ||| (pteR ||| pteX) ||| pteV)))
    userPages (some (pa2pte tf.addr ||| (pteR ||| pteW) ||| pteV))

theorem procPagetable_spec (h : Exact s.Used ext held) (hs : Heap s) :
    Runs R (procPagetable tramp tf) s fun a t =>
      (a = none ∧ Freed s t ext held ∧ s.freelist.length < 5) ∨
        ∃ root, a = some root ∧ Made s t root ext held (topPages tramp tf) ∧
          s.freelist.length ≤ t.freelist.length + 5 := by
  unfold procPagetable
  rw [trampoline_eq, trapframe_eq]
  refine (uvmcreate_spec h hs).seq fun a t ht => ?_
  rcases ht with ⟨rfl, rfl, hnil⟩ | ⟨root, rfl, ht, hone⟩
  · exact .pure (.inl ⟨rfl, ⟨rfl, h, hs, fun _ _ => rfl⟩, by rw [hnil]; decide⟩)
  · dsimp only
    refine (ht.mappages (by decide) rfl).seq fun a u hu => ?_
    rcases hu with ⟨rfl, hu, htwo⟩ | ⟨rfl, hu, hshort⟩
    · rw [if_neg (by decide)]
      refine (hu.mappages (by decide) (update_of_ne (by decide) ..)).seq fun a w hw => ?_
      rcases hw with ⟨rfl, hw, htwo'⟩ | ⟨rfl, hw, hshort⟩
      · rw [if_neg (by decide)]
        exact .pure (.inr ⟨root, rfl, hw, by omega⟩)
      · rw [if_pos (by decide)]
        refine (hw.uvmunmap (by decide)).seq fun _ x hx => ?_
        rw [uvmfree_zero]
        refine (hx.freewalk fun v _ => ?_).seq fun _ y hy => .pure (.inl ⟨rfl, hy, by omega⟩)
        rw [update_idem, update_apply, ite_self]
    · rw [if_pos (by decide)]
      rw [uvmfree_zero]
      exact (hu.freewalk fun _ _ => rfl).seq fun _ x hx => .pure (.inl ⟨rfl, hx, by omega⟩)

/-! ## A page of others -/

theorem Space.attach {q : P} (h : Space n s root ext (r :: held)) (hq : ext q = none) :
    Space n s root (update ext q (some r)) held := by
  refine ⟨?_, h.sound, h.pool, h.bound⟩
  have htree := h.tree.attach (q := Sum.inr q) (by rw [Sum.elim_inr, hq])
  rwa [Sum.update_elim_inr] at htree

theorem Space.detach {q : P} (h : Space n s root ext held) (hq : ext q = some r) :
    Space n s root (update ext q none) (r :: held) := by
  refine ⟨?_, h.sound, h.pool, h.bound⟩
  have htree := h.tree.detach (q := Sum.inr q) (by rw [Sum.elim_inr, hq])
  rwa [Sum.update_elim_inr] at htree

omit [DecidableEq P] in
theorem Space.give (h : Space n s root ext (r :: held)) (hpool : s.InPool r) :
    Space n { s with mem := s.mem.fill r 1, freelist := r :: s.freelist } root ext held ∧
      Moved s { s with mem := s.mem.fill r 1, freelist := r :: s.freelist } root
        (Sum.elim (leafFrames n s.mem root) ext) held := by
  obtain ⟨htree, hmoved⟩ := h.tree.give (x := fun _ => 1) hpool
  exact ⟨h.moved htree hmoved, hmoved⟩

/-! ## Freeing -/

/-- The pages of an address space that `uvmunmap()` frees for size `sz`. -/
theorem toNat_pgroundup_div (hsz : turns 0 sz ≤ userPages) : (pgroundup sz / 4096#64).toNat = turns 0 sz := by
  rw [turns_zero, userPages] at hsz
  have h4096 : (4096#64).toNat = 4096 := rfl
  rw [BitVec.toNat_udiv, toNat_pgroundup, turns_zero, h4096, Nat.mod_eq_of_lt (by omega),
    Nat.mul_div_cancel _ (by decide)]

omit [DecidableEq P] in
theorem Freed.of_leafFrames {lf : Nat → Option Frame} (h : Freed s t (Sum.elim lf ext) held) (hlf : ∀ v, lf v = none) :
    Freed s t ext held := by
  refine ⟨h.kend, h.exact.restrict Sum.inr Sum.inr_injective (fun q => (Sum.elim_inr ..).symm) ?_, h.heap,
    fun f hf => h.mem f (hf.imp_left fun hq => ?_)⟩
  · rintro (v | q) f hf
    · rw [Sum.elim_inl, hlf] at hf
      cases hf
    · exact ⟨q, rfl⟩
  · obtain ⟨q, hq⟩ := hq
    exact ⟨Sum.inr q, by rw [Sum.elim_inr, hq]⟩

omit [DecidableEq P] in
theorem Freed.of_keeps (hk : Keeps s t root ext held) (h : Freed t u ext held) : Freed s u ext held :=
  ⟨h.kend.trans hk.kend, h.exact, h.heap, fun f hf => (h.mem f hf).trans (hk.mem f hf)⟩

/-- An address space without user memory goes. -/
theorem Space.freewalk (h : Space n s root ext held) (hlow : Low s.mem root)
    (hleaf : ∀ v < 2 ^ 26, leaf s.mem root (vaOf v) = none) :
    Runs R (freewalk 3 root) s fun _ t => Freed s t ext held := by
  refine (freewalk_frees h.tree (bare_of_leaf h.sound hlow hleaf)).mono fun _ t ht => ht.of_leafFrames fun v => ?_
  by_cases hv : v < n
  · exact leafFrames_of_none (hleaf v (hv.trans_le h.bound))
  · exact if_neg hv

theorem uvmfree_spec (h : Space userPages s root ext held) (hlow : Low s.mem root) (hsz : turns 0 sz ≤ userPages)
    (hrest : ∀ v < 2 ^ 26, turns 0 sz ≤ v → leaf s.mem root (vaOf v) = none) :
    Runs R (uvmfree root sz) s fun _ t => Freed s t ext held := by
  have hnpages := toNat_pgroundup_div hsz
  unfold uvmfree
  by_cases h0 : 0 < sz
  · rw [if_pos h0]
    refine (h.uvmunmap 0 (pgroundup sz / 4096#64) (by omega)).seq fun _ t ht => ?_
    refine (ht.space.freewalk (ht.keeps.low hlow) fun v hv => ?_).mono fun _ u hu => .of_keeps ht.keeps hu
    rw [ht.leaf _ (vaOf_lt hv), vpn_vaOf hv]
    split
    · rfl
    · exact hrest v hv (by omega)
  · have hzero : sz.toNat = 0 := Nat.eq_zero_of_not_pos h0
    rw [if_neg h0]
    refine h.freewalk hlow fun v hv => hrest v hv ?_
    rw [turns_zero, hzero]
    exact Nat.zero_le v

omit [DecidableEq P] in
theorem Space.made (h : Space n s root ext held) (hlow : Low s.mem root) :
    Made s s root (Sum.elim (leafFrames n s.mem root) ext) held fun v => leaf s.mem root (vaOf v) :=
  ⟨h.tree, h.sound, hlow, rfl, fun _ hva => (leaf_vaOf hva).symm, fun _ _ => rfl⟩

omit [DecidableEq P] in
/-- Mappings at and above page `n` have changed. -/
theorem Space.of_made (h : Space n s root ext held)
    (ht : Made s t root (Sum.elim (leafFrames n s.mem root) ext) held want)
    (hw : ∀ v < n, want v = leaf s.mem root (vaOf v)) : Space n t root ext held := by
  have hframes : leafFrames n t.mem root = leafFrames n s.mem root := by
    funext v
    by_cases hv : v < n
    · have hlt := hv.trans_le h.bound
      rw [leafFrames_of_lt hv, leafFrames_of_lt hv, ht.leaf _ (vaOf_lt hlt), vpn_vaOf hlt, hw v hv]
    · rw [leafFrames, leafFrames, if_neg hv, if_neg hv]
  refine ⟨?_, ht.sound, fun v f hf => ?_, h.bound⟩
  · rw [hframes]
    exact ht.tree
  · rw [hframes] at hf
    exact (inPool_congr ht.kend).mpr (h.pool v f hf)

theorem procFreepagetable_spec (h : Space userPages s root ext held) (hlow : Low s.mem root)
    (hsz : turns 0 sz ≤ userPages) (hrest : ∀ v < userPages, turns 0 sz ≤ v → leaf s.mem root (vaOf v) = none) :
    Runs R (procFreepagetable root sz) s fun _ t => Freed s t ext held := by
  unfold procFreepagetable
  rw [trampoline_eq, trapframe_eq]
  refine ((h.made hlow).uvmunmap (by decide)).seq fun _ t ht => ?_
  refine (ht.uvmunmap (by decide)).seq fun _ u hu => ?_
  have hspace : Space userPages u root ext held := by
    refine h.of_made hu fun v hv => ?_
    rw [update_of_ne (Nat.ne_of_lt hv), update_of_ne (by rw [userPages] at hv; omega)]
  refine (uvmfree_spec hspace hu.low hsz fun v hv hle => ?_).mono fun _ w hw => ?_
  · rw [hu.leaf _ (vaOf_lt hv), vpn_vaOf hv, update_apply]
    split
    · rfl
    · rw [update_apply]
      split
      · rfl
      · exact hrest v (by rw [userPages] at *; omega) hle
  · refine ⟨hw.kend.trans hu.kend, hw.exact, hw.heap, fun f hf =>
      (hw.mem f hf).trans (hu.mem f (hf.imp_left fun hq => ?_))⟩
    obtain ⟨q, hq⟩ := hq
    exact ⟨Sum.inr q, by rw [Sum.elim_inr, hq]⟩

end

end

end Xv6.Vm
