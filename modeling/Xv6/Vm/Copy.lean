import Xv6.Vm.Fill

/-!
# Copies of address spaces

* `CopyOf s t w w'` : the entry `w'` maps a page that was free in `s` and holds what the page of `w` holds, with its
  flags;
* `copyWant s old` : what `uvmcopy()` maps;
* `uvmcopy_spec`, `uvmcopy_copies` : the copy is complete, or all pages taken for it are free again.
-/

namespace Xv6.Vm
open Radix Alloc Hoare Function

section
variable {P : Type} {s t u : Phys} {old new root : Frame} {ext : P → Option Frame}
  {f r : Frame} {va w w' : BitVec 64} {n v v' : Nat}

structure CopyOf (s t : Phys) (w w' : BitVec 64) : Prop where
  flags : pteFlags w' = pteFlags w
  contents : t.mem (pteFrame w') = s.mem (pteFrame w)
  fresh : pteFrame w' ∈ s.freelist

/-- Page `v` of `new` is mapped iff page `v` of `old` was, and then to a copy. -/
def Matches (s t : Phys) (old new : Frame) (v : Nat) : Prop :=
  (leaf s.mem old (vaOf v) = none ∧ leaf t.mem new (vaOf v) = none) ∨
    ∃ w w', leaf s.mem old (vaOf v) = some w ∧ leaf t.mem new (vaOf v) = some w' ∧ CopyOf s t w w'

/-- The page-table pages of `old`, and the pages it maps, belong to others. -/
structure Outside (s : Phys) (old : Frame) (ext : P → Option Frame) : Prop where
  table : ∀ p f, tables s.mem old p = some f → ∃ q, ext q = some f
  page : ∀ va < maxva, ∀ w, leaf s.mem old va = some w → ∃ q, ext q = some (pteFrame w)

/-- A page table and the pages it maps are as they were. -/
structure Intact (s t : Phys) (root : Frame) : Prop where
  table : ∀ p, tables t.mem root p = tables s.mem root p
  leaf : ∀ va, leaf t.mem root va = leaf s.mem root va
  page : ∀ va < maxva, ∀ w, Vm.leaf s.mem root va = some w → t.mem (pteFrame w) = s.mem (pteFrame w)

theorem Keeps.intact {held : List Frame} (h : Keeps s t new ext held) (ho : Outside s old ext) : Intact s t old := by
  have hmem : ∀ p f, tables s.mem old p = some f → t.mem f = s.mem f := fun p f hf => h.mem f (.inl (ho.table p f hf))
  exact ⟨tables_congr hmem, leaf_congr hmem, fun va hva w hw => h.mem _ (.inl (ho.page va hva w hw))⟩

/-- What `uvmcopy()` wants to map at page `v`. -/
def copyWant (s : Phys) (old : Frame) (v : Nat) : Option (BitVec 64 × (Nat → UInt8)) :=
  (leaf s.mem old (vaOf v)).map fun w => (pteFlags w, s.mem (pteFrame w))

theorem copyWant_perm (v : Nat) (perm : BitVec 64) (x : Nat → UInt8) (h : copyWant s old v = some (perm, x)) :
    perm.toNat < 2 ^ 10 := by
  obtain ⟨w, -, hw⟩ := Option.map_eq_some_iff.mp h
  cases hw
  exact toNat_pteFlags w

theorem Filled.matches (h : Filled n s t new ext 0 v (copyWant s old)) (hv : v' < v) : Matches s t old new v' := by
  cases hw : leaf s.mem old (vaOf v') with
  | none =>
    refine .inl ⟨hw, h.gap v' (Nat.zero_le v') hv ?_⟩
    rw [copyWant, hw, Option.map_none]
  | some w =>
    have hwant : copyWant s old v' = some (pteFlags w, s.mem (pteFrame w)) := by rw [copyWant, hw, Option.map_some]
    obtain ⟨r, hr, hleaf, hx⟩ := h.page v' _ _ (Nat.zero_le v') hv hwant
    have hperm : (pteFlags w ||| pteV).toNat < 2 ^ 10 := perm_or_lt (toNat_pteFlags w)
    have hframe : pteFrame (pa2pte r.addr ||| pteFlags w ||| pteV) = r := by rw [BitVec.or_assoc, pteFrame_mk hperm]
    refine .inr ⟨w, _, hw, hleaf, ⟨?_, by rw [hframe, hx], by rwa [hframe]⟩⟩
    rw [BitVec.or_assoc, pteFlags_mk hperm, pteFlags_or_pteV (valid_of_leaf hw)]

variable [DecidableEq P]

theorem copyLoop_spec {R : VmPanic → Prop} (hs : Space n s new ext [])
    (hempty : ∀ v < n, leaf s.mem new (vaOf v) = none) (ho : Outside s old ext) (k : Nat)
    (h : Filled n s t new ext 0 v (copyWant s old)) (hv : v ≤ n) (hk : v + k ≤ n ∨ n = 2 ^ 26 ∧ R .walk) :
    Runs R (copyLoop old new k (vaOf v)) t fun a u =>
      (a = none ∧ Filled n s u new ext 0 (v + k) (copyWant s old) ∧ v + k ≤ n) ∨
        ∃ v' < n, a = some (vaOf v') ∧ Filled n s u new ext 0 v' (copyWant s old) := by
  induction k generalizing v t with
  | zero => exact .pure (.inl ⟨rfl, h, hv⟩)
  | succ k ih =>
    unfold copyLoop
    by_cases hlast : v = n
    · -- the address is MAXVA
      obtain ⟨hn, hR⟩ : n = 2 ^ 26 ∧ R .walk := hk.resolve_left (by omega)
      refine walk_panic_bind ?_ hR
      show 2 ^ 38 ≤ (vaOf v).toNat
      rw [toNat_vaOf (by omega)]
      omega
    have hlt : v < n := by omega
    have hlt' := hlt.trans_le hs.bound
    have hsame := (h.keeps.outer.intact ho).leaf (vaOf v)
    have hnext : ∀ {u}, Filled n s u new ext 0 (v + 1) (copyWant s old) →
        Runs R (copyLoop old new k (vaOf v + 4096#64)) u fun a u =>
          (a = none ∧ Filled n s u new ext 0 (v + (k + 1)) (copyWant s old) ∧ v + (k + 1) ≤ n) ∨
            ∃ v' < n, a = some (vaOf v') ∧ Filled n s u new ext 0 v' (copyWant s old) := by
      intro u hu
      rw [vaOf_succ]
      have hrun := ih hu hlt (hk.imp_left fun hle => by omega)
      rwa [Nat.add_assoc, Nat.add_comm 1 k] at hrun
    have hskip : leaf t.mem old (vaOf v) = none → Filled n s t new ext 0 (v + 1) (copyWant s old) := by
      intro hnone
      refine h.skip (Nat.zero_le v) hlt' (hempty v hlt) ?_
      rw [copyWant, ← hsame, hnone, Option.map_none]
    refine lookup_bind (vaOf_lt hlt') (fun hnone => ?_) fun f hf => ?_
    · exact hnext (hskip (by rw [leaf, hnone, Option.bind_none]))
    · refine getPte_bind ?_
      by_cases hvalid : t.mem.pte f (px 0 (vaOf v)) &&& pteV = 0
      · rw [if_pos hvalid]
        exact hnext (hskip (by rw [leaf_of_tables hf, (valid_eq_none_iff _).mpr hvalid]))
      · rw [if_neg hvalid]
        have hw : leaf s.mem old (vaOf v) = some (t.mem.pte f (px 0 (vaOf v))) := by
          rw [← hsame, leaf_of_tables hf, valid_of_ne hvalid]
        generalize t.mem.pte f (px 0 (vaOf v)) = w at hvalid hw
        obtain ⟨q, hq⟩ := ho.page _ (vaOf_lt hlt') w hw
        have hpage : t.mem (pteFrame w) = s.mem (pteFrame w) := h.keeps.outer.mem _ (.inl ⟨q, hq⟩)
        have hwant : copyWant s old v = some (pteFlags w, t.mem (pteFrame w)) := by
          rw [copyWant, hw, Option.map_some, hpage]
        have hnone : leaf t.mem new (vaOf v) = none := by
          rw [h.rest _ (vaOf_lt hlt') (by rw [vpn_vaOf hlt']; omega), hempty v hlt]
        refine kalloc_bind (fun hnil => ?_) fun r rest hfree => ?_
        · exact .pure (.inr ⟨v, hlt, rfl, h⟩)
        · have hmem : update (t.mem.fill r 5) r ((t.mem.fill r 5) (pteFrame w)) =
              update t.mem r (t.mem (pteFrame w)) := by
            have hne : pteFrame w ≠ r := by
              rintro rfl
              exact h.space.not_free_ext hq (hfree ▸ List.mem_cons_self)
            rw [fill_of_ne hne, Mem.fill, update_idem]
          refine .modify_bind ?_
          dsimp only
          rw [hmem]
          refine h.space.mapFresh_bind hfree hlt hnone (toNat_pteFlags w) (fun u hu => ?_) fun u hu => ?_
          · exact .pure (.inr ⟨v, hlt, rfl, h.stop copyWant_perm hv hu⟩)
          · exact hnext (h.next copyWant_perm hs (Nat.zero_le v) hlt (hempty v hlt) hwant hu)

theorem toNat_pages (hv : v ≤ 2 ^ 26) : (vaOf v / 4096#64).toNat = v := by
  have h4096 : (4096#64).toNat = 4096 := rfl
  rw [BitVec.toNat_udiv, toNat_vaOf hv, h4096, Nat.mul_div_cancel _ (by decide)]

theorem uvmcopy_spec {R : VmPanic → Prop} {sz : BitVec 64} (hs : Space n s new ext [])
    (hempty : ∀ v < n, leaf s.mem new (vaOf v) = none) (ho : Outside s old ext)
    (hk : turns 0 sz ≤ n ∨ n = 2 ^ 26 ∧ R .walk) :
    Runs R (uvmcopy old new sz) s fun r t => Intact s t old ∧
      ((r = 0 ∧ Filled n s t new ext 0 (turns 0 sz) (copyWant s old) ∧ turns 0 sz ≤ n) ∨
        (r = -1 ∧ Restored n s t new ext)) := by
  have hzero : (0 : BitVec 64) = vaOf 0 := rfl
  unfold uvmcopy
  generalize turns 0 sz = k at hk ⊢
  rw [hzero]
  refine (copyLoop_spec hs hempty ho _ (.refl hs 0) (Nat.zero_le n) (by rwa [Nat.zero_add])).seq fun a t ht => ?_
  rw [Nat.zero_add] at ht
  rcases ht with ⟨rfl, ht, hle⟩ | ⟨v, hv, rfl, ht⟩
  · exact .pure ⟨ht.keeps.outer.intact ho, .inl ⟨rfl, ht, hle⟩⟩
  · have hpages := toNat_pages ((Nat.le_of_lt hv).trans hs.bound)
    refine (ht.space.uvmunmap 0 (vaOf v / 4096#64) (by omega)).seq fun _ u hu => ?_
    rw [hpages, Nat.zero_add] at hu
    have hres := ht.undo hu
    exact .pure ⟨hres.keeps.outer.intact ho, .inr ⟨rfl, hres⟩⟩

/-! ## From any state -/

/-- The page table `old`, and what it maps, has no free page and not the page `new`. -/
structure Parent (s : Phys) (old new : Frame) : Prop where
  table : ∀ p f, tables s.mem old p = some f → f ∉ s.freelist ∧ f ≠ new
  page : ∀ va < maxva, ∀ w, leaf s.mem old va = some w → pteFrame w ∉ s.freelist ∧ pteFrame w ≠ new

omit [DecidableEq P] in
theorem Parent.outside (h : Parent s old new) (hnew : Fresh s new) : Outside s old (others s new) := by
  have hothers : ∀ f, f ∉ s.freelist ∧ f ≠ new → ∃ q, others s new q = some f := by
    intro f hf
    refine ⟨f, if_pos ⟨hf.1, fun p hp => hf.2 (node_of_empty hnew.empty hp).2⟩⟩
  exact ⟨fun p f hp => hothers f (h.table p f hp), fun va hva w hw => hothers _ (h.page va hva w hw)⟩

/-- **`uvmcopy()` copies the address space.** Into an empty page table it copies each page below `sz` to a page of its
own that was free, or it maps nothing and gives back what it took. -/
theorem uvmcopy_copies {sz : BitVec 64} (hs : Heap s) (hnew : Fresh s new) (hold : Parent s old new) :
    Runs (fun e => e = .walk ∧ maxva < sz) (uvmcopy old new sz) s fun r t => Intact s t old ∧
      ((r = 0 ∧ (∀ v, v * 4096 < sz.toNat → Matches s t old new v) ∧
          (∀ v v' w w', v * 4096 < sz.toNat → v' * 4096 < sz.toNat → leaf t.mem new (vaOf v) = some w →
            leaf t.mem new (vaOf v') = some w' → pteFrame w = pteFrame w' → v = v') ∧
          ∀ v w va w', v * 4096 < sz.toNat → va < maxva → leaf t.mem new (vaOf v) = some w →
            leaf t.mem old va = some w' →
            pteFrame w ≠ pteFrame w') ∨
        (r = -1 ∧ (∀ va < maxva, leaf t.mem new va = none) ∧
          ∀ f ∈ s.freelist, f ∈ t.freelist ∨ ∃ p, tables t.mem new p = some f)) := by
  have hempty : ∀ v < 2 ^ 26, leaf s.mem new (vaOf v) = none := fun v _ => leaf_of_empty hnew.empty
  have hk : turns 0 sz ≤ 2 ^ 26 ∨ 2 ^ 26 = 2 ^ 26 ∧ (VmPanic.walk = .walk ∧ maxva < sz) := by
    by_cases hle : sz.toNat ≤ 2 ^ 38
    · refine .inl ?_
      rw [turns_zero]
      omega
    · refine .inr ⟨rfl, rfl, ?_⟩
      rw [BitVec.lt_def, toNat_maxva]
      omega
  have hturns : ∀ {v}, v * 4096 < sz.toNat → v < turns 0 sz := by
    intro v hv
    rw [turns_zero]
    omega
  have hspace := hnew.space hs (Nat.le_refl (2 ^ 26))
  refine (uvmcopy_spec hspace hempty (hold.outside hnew) hk).mono fun r t ⟨hintact, hcase⟩ => ⟨hintact, ?_⟩
  rcases hcase with ⟨rfl, ht, hle⟩ | ⟨rfl, ht⟩
  · have hframe : ∀ {v w}, v * 4096 < sz.toNat → leaf t.mem new (vaOf v) = some w →
        leafFrames (2 ^ 26) t.mem new v = some (pteFrame w) := by
      intro v w hv hw
      rw [leafFrames_of_lt ((hturns hv).trans_le hle), hw, Option.map_some]
    refine .inl ⟨rfl, fun v hv => ht.matches (hturns hv), fun v v' w w' hv hv' hw hw' heq => ?_,
      fun v w va w' hv hva hw hw' heq => ?_⟩
    · have hsame := hframe hv' hw'
      rw [← heq] at hsame
      exact ht.space.once (hframe hv hw) hsame
    · rw [hintact.leaf] at hw'
      rcases ht.matches (hturns hv) with ⟨-, hnone⟩ | ⟨_, w'', -, hw'', hcopy⟩
      · rw [hnone] at hw
        cases hw
      · rw [hw] at hw''
        rw [← Option.some.inj hw''] at hcopy
        exact (hold.page va hva w' hw').1 (heq ▸ hcopy.fresh)
  · refine .inr ⟨rfl, fun va hva => ?_, fun f hf => ht.free hspace hf⟩
    rw [ht.leaf va hva, leaf_of_empty hnew.empty]

/-- A page that holds nines is copied. -/
theorem uvmcopy_copies_onePage : ∃ s, leaf s.mem 7 (vaOf 0) ≠ none ∧
    Runs (fun _ => False) (uvmcopy 7 8 4096#64) s fun r t => Intact s t 7 ∧
      (r = 0 → ∃ w, leaf t.mem 8 (vaOf 0) = some w ∧ t.mem (pteFrame w) = fun _ => 9) := by
  obtain ⟨s, hs⟩ := exists_page (fun _ => 9) pteR (by decide) (Nat.le_refl (2 ^ 26)) (by decide)
  have hother : others blank 7 8 = some 8 := by
    refine if_pos ⟨by decide, fun p hp => ?_⟩
    have h7 := (node_of_empty (blank_empty 7) hp).2
    exact absurd h7 (by decide)
  have hmem : s.mem 8 = blank.mem 8 := hs.keeps.mem 8 (.inl ⟨Sum.inr 8, hother⟩)
  have hleaf : leaf s.mem 7 (vaOf 0) = some (pa2pte (Frame.addr 1) ||| pteR ||| pteV) := by
    rw [hs.leaf _ (vaOf_lt (by decide)), vpn_vaOf (by decide), if_pos rfl]
  have hframe : pteFrame (pa2pte (Frame.addr 1) ||| pteR ||| pteV) =
      1 := by rw [BitVec.or_assoc, pteFrame_mk (by decide)]
  have hplace : leafFrames (2 ^ 26) s.mem 7 0 = some 1 := by
    rw [leafFrames_of_lt (by decide), hleaf, Option.map_some, hframe]
  have hfresh : Fresh s 8 := by
    refine ⟨fun i => ?_, hs.space.not_free_ext hother, ?_⟩
    · rw [child_congr hmem, blank_empty]
    · exact (inPool_congr hs.keeps.kend).mpr (blank_inPool (by decide))
  have hparent : Parent s 7 8 := by
    refine ⟨fun p f hp => ⟨hs.space.tree.not_free hp, (hs.space.tree.ne_ext hp (q := Sum.inr 8) hother).symm⟩,
      fun va hva w hw => ?_⟩
    rw [hs.leaf va hva] at hw
    by_cases hv : vpn va = 0
    · rw [if_pos hv] at hw
      rw [← Option.some.inj hw, hframe]
      exact ⟨hs.space.not_free hplace, by decide⟩
    · rw [if_neg hv, leaf_of_empty (blank_empty 7)] at hw
      cases hw
  refine ⟨s, fun hc => absurd (hleaf.symm.trans hc) (Option.some_ne_none _), ?_⟩
  refine ((uvmcopy_copies ⟨hs.space.tree.nodup, hs.space.sound.free⟩ hfresh hparent).weaken fun e he => ?_).mono
    fun r t ⟨hintact, hcase⟩ => ⟨hintact, fun hr => ?_⟩
  · exact absurd he.2 (by decide)
  · rcases hcase with ⟨-, hcopied, -⟩ | ⟨hr', -⟩
    · rcases hcopied 0 (by decide) with ⟨hnone, -⟩ | ⟨w, w', hw, hw', hcopy⟩
      · rw [hleaf] at hnone
        cases hnone
      · refine ⟨w', hw', ?_⟩
        rw [hleaf] at hw
        rw [hcopy.contents, ← Option.some.inj hw, hframe, hs.content]
    · rw [hr] at hr'
      exact absurd hr' (by decide)

end

end Xv6.Vm
