import Xv6.Vm.Space

/-!
# User memory from the kernel

* `userByte s root psz va` : the byte at the user address `va`, where pages of a process of size `psz` that are not
  mapped yet read as zero;
* `UserTable n s root psz ext` : the first `n` pages belong to the process, and the pages above are the kernel's;
* `Accessed n s t root psz ext new` : the bytes `new` have been written, pages may have been faulted in, and nothing
  else has changed;
* `touch_spec` : the page that `copyin()` and its kin work on, or why there is none.
-/

namespace Xv6.Vm
open Radix Alloc Hoare

section
variable {P : Type} {s t u : Phys} {root f r : Frame} {ext : P → Option Frame}
  {va va0 psz perm w : BitVec 64} {n v : Nat} {new new' : BitVec 64 → Option UInt8} {R : VmPanic → Prop}

def userByte (s : Phys) (root : Frame) (psz va : BitVec 64) : Option UInt8 :=
  if va < maxva then
    match leaf s.mem root va with
    | some w => if w &&& pteU ≠ 0 then some (s.mem (pteFrame w) (va.toNat % 4096)) else none
    | none => if pgrounddown va < psz then some 0 else none
  else none

theorem userByte_of_leaf (hva : va < maxva) (hw : leaf s.mem root va = some w) :
    userByte s root psz va = if w &&& pteU ≠ 0 then some (s.mem (pteFrame w) (va.toNat % 4096)) else none := by
  rw [userByte, if_pos hva, hw]

theorem userByte_of_none (hva : va < maxva) (hnone : leaf s.mem root va = none) :
    userByte s root psz va = if pgrounddown va < psz then some 0 else none := by
  rw [userByte, if_pos hva, hnone]

theorem userByte_of_ge (hva : ¬ va < maxva) : userByte s root psz va = none := if_neg hva

theorem userByte_congr (hleaf : leaf t.mem root va = leaf s.mem root va)
    (hmem : va < maxva → ∀ w, leaf s.mem root va = some w → t.mem (pteFrame w) = s.mem (pteFrame w)) :
    userByte t root psz va = userByte s root psz va := by
  by_cases hva : va < maxva
  · cases hs : leaf s.mem root va with
    | none => rw [userByte_of_none hva hs, userByte_of_none hva (hleaf.trans hs)]
    | some w => rw [userByte_of_leaf hva hs, userByte_of_leaf hva (hleaf.trans hs), hmem hva w hs]
  · rw [userByte_of_ge hva, userByte_of_ge hva]

/-- What is mapped above the pages of the process is the kernel's, and not for users. -/
structure Kernel (n : Nat) (s : Phys) (root : Frame) (psz : BitVec 64) (ext : P → Option Frame) : Prop where
  size : ∀ va < maxva, n ≤ vpn va → leaf s.mem root va = none → psz ≤ pgrounddown va
  only : ∀ va < maxva, n ≤ vpn va → ∀ w, leaf s.mem root va = some w → w &&& pteU = 0 ∧ ∃ q, ext q = some (pteFrame w)

structure UserTable (n : Nat) (s : Phys) (root : Frame) (psz : BitVec 64) (ext : P → Option Frame) : Prop where
  space : Space n s root ext []
  kernel : Kernel n s root psz ext
  kend : 0 < s.kend

/-- No access to `va`: it is out of bounds, or its page is mapped and `deny` says no. -/
def Blocked (deny : BitVec 64 → Prop) (s : Phys) (root : Frame) (psz va : BitVec 64) : Prop :=
  maxva ≤ va ∨ (∃ w, leaf s.mem root va = some w ∧ deny w) ∨ (leaf s.mem root va = none ∧ psz ≤ pgrounddown va)

/-- The page of `va` is not mapped, and there is no memory for it. -/
def Exhausted (t : Phys) (root : Frame) (va : BitVec 64) : Prop :=
  leaf t.mem root va = none ∧ t.freelist.length < 1 + missing t.mem root va

/-- Not a user page. -/
def NotUser (w : BitVec 64) : Prop := w &&& pteU = 0

theorem userByte_user (hva : va < maxva) (hw : leaf s.mem root va = some w) (huser : ¬ NotUser w) :
    userByte s root psz va = some (s.mem (pteFrame w) (va.toNat % 4096)) := by
  rw [userByte_of_leaf hva hw]
  exact if_pos huser

theorem userByte_denied (hva : va < maxva) (hw : leaf s.mem root va = some w) (hdeny : NotUser w) :
    userByte s root psz va = none := by
  rw [userByte_of_leaf hva hw]
  exact if_neg (not_not.mpr hdeny)

/-- Not a user page that may be written. -/
def NotWritable (w : BitVec 64) : Prop := w &&& pteU = 0 ∨ w &&& pteW = 0

structure Accessed (n : Nat) (s t : Phys) (root : Frame) (psz : BitVec 64) (ext : P → Option Frame)
    (new : BitVec 64 → Option UInt8) : Prop where
  table : UserTable n t root psz ext
  keeps : Keeps s t root ext []
  kept : ∀ va < maxva, ∀ w, leaf s.mem root va = some w → leaf t.mem root va = some w
  fresh : ∀ va < maxva, ∀ w, leaf s.mem root va = none → leaf t.mem root va = some w →
    pgrounddown va < psz ∧ ¬ NotWritable w
  byte : ∀ va, userByte t root psz va = (new va).or (userByte s root psz va)
  guarded : ∀ va < maxva, ∀ w, leaf s.mem root va = some w → NotWritable w → t.mem (pteFrame w) = s.mem (pteFrame w)

theorem Accessed.refl (h : UserTable n s root psz ext) : Accessed n s s root psz ext fun _ => none :=
  ⟨h, .refl .., fun _ _ _ hw => hw, fun _ _ w hnone hw => absurd (hnone.symm.trans hw) (Option.some_ne_none w).symm,
    fun _ => (Option.none_or).symm, fun _ _ _ _ _ => rfl⟩

theorem Accessed.trans (h : Accessed n s t root psz ext new) (h' : Accessed n t u root psz ext new') :
    Accessed n s u root psz ext fun va => (new' va).or (new va) where
  table := h'.table
  keeps := h.keeps.trans h'.keeps
  kept va hva w hw := h'.kept va hva w (h.kept va hva w hw)
  fresh va hva w hnone hw := by
    cases ht : leaf t.mem root va with
    | none => exact h'.fresh va hva w ht hw
    | some w' =>
      have heq : w' = w := Option.some.inj ((h'.kept va hva w' ht).symm.trans hw)
      exact h.fresh va hva w hnone (heq ▸ ht)
  byte va := by rw [h'.byte, h.byte, Option.or_assoc]
  guarded va hva w hw hdeny := by
    rw [h'.guarded va hva w (h.kept va hva w hw) hdeny, h.guarded va hva w hw hdeny]

theorem Accessed.congr (h : Accessed n s t root psz ext new) (hnew : ∀ va, new' va = new va) :
    Accessed n s t root psz ext new' := by
  rwa [show new' = new from funext hnew]

/-- Access is not refused later for another reason. -/
theorem Accessed.blocked {deny : BitVec 64 → Prop} (h : Accessed n s t root psz ext new)
    (hdeny : ∀ w, deny w → NotWritable w) (hb : Blocked deny t root psz va) : Blocked deny s root psz va := by
  by_cases hva : va < maxva
  · refine hb.imp_right fun hb => ?_
    rcases hb with ⟨w, hw, hd⟩ | ⟨hnone, hsize⟩
    · cases hs : leaf s.mem root va with
      | none => exact absurd (hdeny w hd) (h.fresh va hva w hs hw).2
      | some w' =>
        have heq : w' = w := Option.some.inj ((h.kept va hva w' hs).symm.trans hw)
        exact .inl ⟨w', rfl, heq ▸ hd⟩
    · cases hs : leaf s.mem root va with
      | none => exact .inr ⟨rfl, hsize⟩
      | some w' => exact absurd ((h.kept va hva w' hs).symm.trans hnone) (Option.some_ne_none w')
  · exact .inl (BitVec.not_lt.mp hva)

/-! ## Faulting pages in -/

theorem leafFrames_of_leaf {m : Mem} (hva : va < maxva) (hv : vpn va < n) (hw : leaf m root va = some w) :
    leafFrames n m root (vpn va) = some (pteFrame w) := by
  rw [leafFrames_of_lt hv, leaf_vaOf hva, hw, Option.map_some]

/-- A user page is a page of the process. -/
theorem UserTable.owned (h : UserTable n s root psz ext) (hva : va < maxva) (hw : leaf s.mem root va = some w)
    (huser : ¬ NotUser w) : vpn va < n :=
  Nat.lt_of_not_le fun hge => huser (h.kernel.only va hva hge w hw).1

theorem UserTable.mem_of_leaf (h : UserTable n s root psz ext)
    (hk : Keeps s t root (Sum.elim (leafFrames n s.mem root) ext) []) (hva : va < maxva)
    (hw : leaf s.mem root va = some w) : t.mem (pteFrame w) = s.mem (pteFrame w) := by
  by_cases hv : vpn va < n
  · exact hk.leaf (leafFrames_of_leaf hva hv hw)
  · exact hk.outer.mem _ (.inl (h.kernel.only va hva (Nat.le_of_not_lt hv) w hw).2)

theorem UserTable.addr_ne_zero (h : UserTable n s root psz ext) (hva : va < maxva) (hw : leaf s.mem root va = some w)
    (huser : ¬ NotUser w) : (pteFrame w).addr ≠ 0 := by
  intro hc
  have hpool := (h.space.pool _ _ (leafFrames_of_leaf hva (h.owned hva hw huser) hw)).1
  have hkend := h.kend
  rw [hc] at hpool
  exact absurd (Nat.lt_of_lt_of_le hkend hpool) (Nat.lt_irrefl 0)

/-- There was no memory for a page. -/
theorem UserTable.spared (h : UserTable n s root psz ext) (ht : Spared n s t root ext [] v) :
    Accessed n s t root psz ext fun _ => none := by
  refine ⟨⟨ht.space, ⟨fun va hva hge hnone => ?_, fun va hva hge w hw => ?_⟩, ht.keeps.kend ▸ h.kend⟩, ht.keeps.outer,
    fun va _ w hw => (ht.leaf va).trans hw, fun va _ w hnone hw => ?_, fun va => ?_, fun va hva w hw _ =>
    h.mem_of_leaf ht.keeps hva hw⟩
  · exact h.kernel.size va hva hge ((ht.leaf va).symm.trans hnone)
  · exact h.kernel.only va hva hge w ((ht.leaf va).symm.trans hw)
  · rw [ht.leaf, hnone] at hw
    cases hw
  · rw [Option.none_or]
    exact userByte_congr (ht.leaf va) fun hva w hw => h.mem_of_leaf ht.keeps hva hw

theorem pgrounddown_vpn (hva : va < maxva) : pgrounddown va = vaOf (vpn va) := by
  apply BitVec.eq_of_toNat_eq
  rw [toNat_pgrounddown, toNat_vaOf (Nat.le_of_lt (vpn_lt hva)), vpn]

/-- The permissions of a page that is faulted in. -/
theorem faulted_perm : ¬ NotWritable (pa2pte r.addr ||| (pteW ||| pteU ||| pteR) ||| pteV) := by
  rw [BitVec.or_assoc]
  rintro (hc | hc)
  · rw [pa2pte_or_and (by decide)] at hc
    exact absurd hc (by decide)
  · rw [pa2pte_or_and (by decide)] at hc
    exact absurd hc (by decide)

/-- A page of zeros has been faulted in. -/
theorem UserTable.extended (h : UserTable n s root psz ext) (hv : v < n) (hnone : leaf s.mem root (vaOf v) = none)
    (hsize : vaOf v < psz) (ht : Extended n s t root ext [] v r (fun _ => 0) (pteW ||| pteU ||| pteR)) :
    Accessed n s t root psz ext fun _ => none := by
  have hframe : pteFrame (pa2pte r.addr ||| (pteW ||| pteU ||| pteR) ||| pteV) = r := by
    rw [BitVec.or_assoc, pteFrame_mk (by decide)]
  have hempty : ∀ {va}, va < maxva → vpn va = v → leaf s.mem root va = none := by
    intro va hva heq
    rw [← leaf_vaOf hva, heq, hnone]
  refine ⟨⟨ht.space, ⟨fun va hva hge hleaf => ?_, fun va hva hge w hw => ?_⟩, ht.keeps.kend ▸ h.kend⟩, ht.keeps.outer,
    fun va hva w hw => ?_, fun va hva w hnone hw => ?_, fun va => ?_, fun va hva w hw _ =>
    h.mem_of_leaf ht.keeps hva hw⟩
  · rw [ht.leaf va hva, if_neg (by omega)] at hleaf
    exact h.kernel.size va hva hge hleaf
  · rw [ht.leaf va hva, if_neg (by omega)] at hw
    exact h.kernel.only va hva hge w hw
  · rw [ht.leaf va hva, if_neg, hw]
    intro heq
    rw [hempty hva heq] at hw
    cases hw
  · rw [ht.leaf va hva] at hw
    by_cases heq : vpn va = v
    · rw [if_pos heq] at hw
      cases hw
      exact ⟨by rw [pgrounddown_vpn hva, heq]; exact hsize, faulted_perm⟩
    · rw [if_neg heq, hnone] at hw
      cases hw
  · rw [Option.none_or]
    by_cases hva : va < maxva
    · have hleaf := ht.leaf va hva
      by_cases heq : vpn va = v
      · -- the new page reads as zero, as it did before
        rw [if_pos heq] at hleaf
        have huser : (pa2pte r.addr ||| (pteW ||| pteU ||| pteR) ||| pteV) &&& pteU ≠ 0 :=
        fun hc => faulted_perm (.inl hc)
        rw [userByte_of_leaf hva hleaf, if_pos huser, hframe, ht.content, userByte_of_none hva (hempty hva heq), if_pos]
        rw [pgrounddown_vpn hva, heq]
        exact hsize
      · rw [if_neg heq] at hleaf
        exact userByte_congr hleaf fun hva w hw => h.mem_of_leaf ht.keeps hva hw
    · rw [userByte_of_ge hva, userByte_of_ge hva]

/-! ## The page to work on -/

/-- Only page `v` may have been mapped. -/
def Elsewhere (s t : Phys) (root : Frame) (v : Nat) : Prop :=
  ∀ va < maxva, vpn va ≠ v → leaf t.mem root va = leaf s.mem root va

theorem walkaddr_spec (hva : va < maxva) :
    Runs R (walkaddr root va) s fun pa t => t = s ∧
      ((∃ w, leaf s.mem root va = some w ∧ ¬ NotUser w ∧ pa = (pteFrame w).addr) ∨
        (pa = 0 ∧ ∀ w, leaf s.mem root va = some w → NotUser w)) := by
  unfold walkaddr
  rw [if_neg (BitVec.not_le.mpr hva)]
  refine lookup_bind hva (fun hnone => ?_) fun f hf => ?_
  · refine .pure ⟨rfl, .inr ⟨rfl, fun w hw => ?_⟩⟩
    rw [leaf, hnone, Option.bind_none] at hw
    cases hw
  · refine getPte_bind ?_
    by_cases hv : s.mem.pte f (px 0 va) &&& pteV = 0
    · rw [if_pos hv]
      refine .pure ⟨rfl, .inr ⟨rfl, fun w hw => ?_⟩⟩
      rw [leaf_of_tables hf, (valid_eq_none_iff _).mpr hv] at hw
      cases hw
    · have hleaf : leaf s.mem root va = some (s.mem.pte f (px 0 va)) := by rw [leaf_of_tables hf, valid_of_ne hv]
      rw [if_neg hv]
      by_cases hu : s.mem.pte f (px 0 va) &&& pteU = 0
      · rw [if_pos hu]
        refine .pure ⟨rfl, .inr ⟨rfl, fun w hw => ?_⟩⟩
        rw [hleaf] at hw
        rw [NotUser, ← Option.some.inj hw, hu]
      · rw [if_neg hu]
        exact .pure ⟨rfl, .inl ⟨_, hleaf, hu, (addr_pteFrame _).symm⟩⟩

theorem ismapped_spec (hva : va < maxva) :
    Runs R (ismapped root va) s fun b t => t = s ∧ (b = true ↔ leaf s.mem root va ≠ none) := by
  unfold ismapped
  refine lookup_bind hva (fun hnone => ?_) fun f hf => getPte_bind (.pure ⟨rfl, ?_⟩)
  · refine .pure ⟨rfl, ?_⟩
    rw [leaf, hnone, Option.bind_none]
    simp
  · rw [decide_eq_true_iff, leaf_of_tables hf, not_iff_not, valid_eq_none_iff]

variable [DecidableEq P]

theorem vmfault_spec (h : UserTable n s root psz ext) (hv : v < 2 ^ 26)
    (hdeny : ∀ w, leaf s.mem root (vaOf v) = some w → NotUser w) :
    Runs R (vmfault root psz (vaOf v)) s fun pa t => Accessed n s t root psz ext (fun _ => none) ∧
      Elsewhere s t root v ∧
      ((pa = 0 ∧ (Blocked NotUser s root psz (vaOf v) ∨ Exhausted t root (vaOf v))) ∨
        ∃ w, leaf t.mem root (vaOf v) = some w ∧ ¬ NotUser w ∧ pa = (pteFrame w).addr) := by
  have hva := vaOf_lt hv
  have hdown : pgrounddown (vaOf v) = vaOf v := by rw [pgrounddown_vpn hva, vpn_vaOf hv]
  unfold vmfault
  refine .ite (fun hsize => ?_) fun hsize => ?_
  · refine .pure ⟨.refl h, fun _ _ _ => rfl, .inl ⟨rfl, .inl (.inr ?_)⟩⟩
    rw [hdown]
    cases hleaf : leaf s.mem root (vaOf v) with
    | none => exact .inr ⟨rfl, hsize⟩
    | some w => exact .inl ⟨w, rfl, hdeny w hleaf⟩
  · rw [hdown]
    refine (ismapped_spec hva).seq fun b t ⟨ht, hb⟩ => ?_
    subst ht
    by_cases hmapped : b = true
    · rw [if_pos hmapped]
      obtain ⟨w, hw⟩ := Option.ne_none_iff_exists'.mp (hb.mp hmapped)
      exact .pure ⟨.refl h, fun _ _ _ => rfl, .inl ⟨rfl, .inl (.inr (.inl ⟨w, hw, hdeny w hw⟩))⟩⟩
    · rw [if_neg hmapped]
      have hnone : leaf t.mem root (vaOf v) = none := by
        by_contra hc
        exact hmapped (hb.mpr hc)
      have hlt : v < n := by
        by_contra hge
        have hle := h.kernel.size _ hva (by rw [vpn_vaOf hv]; omega) hnone
        rw [hdown] at hle
        exact hsize hle
      have hfail : ∀ {u}, Spared n t u root ext [] v → Accessed n t u root psz ext (fun _ => none) ∧
          Elsewhere t u root v ∧ ((0#64 = 0 ∧ (Blocked NotUser t root psz (vaOf v) ∨ Exhausted u root (vaOf v))) ∨
            ∃ w, leaf u.mem root (vaOf v) = some w ∧ ¬ NotUser w ∧ 0#64 = (pteFrame w).addr) := fun hu =>
        ⟨h.spared hu, fun va _ _ => hu.leaf va, .inl ⟨rfl, .inr ⟨(hu.leaf _).trans hnone, hu.still⟩⟩⟩
      refine kalloc_bind (fun hnil => .pure (hfail (h.space.spared hnil))) fun r rest hfree => memset_bind ?_
      dsimp only
      rw [fill_fill]
      refine h.space.mapFresh_bind hfree hlt hnone (by decide) (fun u hu => .pure (hfail hu)) fun u hu => ?_
      have hleaf : leaf u.mem root (vaOf v) = some (pa2pte r.addr ||| (pteW ||| pteU ||| pteR) ||| pteV) := by
        rw [hu.leaf _ hva, vpn_vaOf hv, if_pos rfl]
      refine .pure ⟨h.extended hlt hnone (BitVec.not_le.mp hsize) hu, fun va hva' hne => ?_,
        .inr ⟨_, hleaf, fun hc => faulted_perm (.inl hc), ?_⟩⟩
      · rw [hu.leaf va hva', if_neg hne]
      · rw [BitVec.or_assoc, pteFrame_mk (by decide)]

/-- `touch` gives the user page at `vaOf v`, or says why there is none. -/
theorem touch_spec (h : UserTable n s root psz ext) (hv : v < 2 ^ 26) :
    Runs R (touch root psz (vaOf v)) s fun pa t => Accessed n s t root psz ext (fun _ => none) ∧ Elsewhere s t root v ∧
      ((pa = 0 ∧ (Blocked NotUser s root psz (vaOf v) ∨ Exhausted t root (vaOf v))) ∨
        (pa ≠ 0 ∧ ∃ w, leaf t.mem root (vaOf v) = some w ∧ ¬ NotUser w ∧ pa = (pteFrame w).addr)) := by
  have hva := vaOf_lt hv
  unfold touch
  refine (walkaddr_spec hva).seq fun pa t ⟨ht, hcase⟩ => ?_
  subst ht
  rcases hcase with ⟨w, hw, huser, rfl⟩ | ⟨rfl, hdeny⟩
  · have hne := h.addr_ne_zero hva hw huser
    rw [if_neg hne]
    exact .pure ⟨.refl h, fun _ _ _ => rfl, .inr ⟨hne, w, hw, huser, rfl⟩⟩
  · rw [if_pos rfl]
    refine (vmfault_spec h hv hdeny).mono fun pa u ⟨ha, helse, hcase⟩ => ⟨ha, helse, hcase.imp_right ?_⟩
    rintro ⟨w, hw, huser, rfl⟩
    exact ⟨ha.table.addr_ne_zero hva hw huser, w, hw, huser, rfl⟩

omit [DecidableEq P] in
/-- Above all addresses nothing is touched. -/
theorem touch_top (hva : maxva ≤ va) (hsize : psz ≤ va) :
    Runs R (touch root psz va) s fun pa t => pa = 0 ∧ t = s := by
  have hwalk : Runs R (walkaddr root va) s fun pa t => pa = 0 ∧ t = s := by
    unfold walkaddr
    rw [if_pos hva]
    exact .pure ⟨rfl, rfl⟩
  unfold touch
  refine hwalk.seq fun pa t ⟨hpa, ht⟩ => ?_
  subst hpa ht
  rw [if_pos rfl]
  unfold vmfault
  rw [if_pos hsize]
  exact .pure ⟨rfl, rfl⟩

end

end Xv6.Vm
