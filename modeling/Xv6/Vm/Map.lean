import Xv6.Vm.Walk

/-!
# A page table is a finite map

* `lookup s root va` : the entry that `walk(va, 0)` finds;
* `WellFormed s root` : the page-table pages are distinct, and none of them is free;
* `uvmunmap_spec` : `uvmunmap()` removes the mappings of its range, whoever owns the pages;
* `page_table_is_a_map` : what `mappages()` and `uvmunmap()` do to what `walk()` finds.
-/

namespace Xv6.Vm
open Radix Alloc Hoare

section
variable {s t : Phys} {root f : Frame} {va va' : BitVec 64} {p : List (Fin 512)}

/-- The entry that `walk(va, 0)` finds. -/
def lookup (s : Phys) (root : Frame) (va : BitVec 64) : Option (BitVec 64) :=
  match walk root va false s with
  | .ok (some at', _) => some (s.mem.pte at'.1 at'.2)
  | _ => none

theorem lookup_eq (hva : va < maxva) : lookup s root va = entry s.mem root va := by
  have hfind : Runs (fun _ => False) (walk root va false) s _ := walk_find hva
  rw [lookup, entry]
  rw [Runs] at hfind
  cases hrun : walk root va false s with
  | error e => rw [hrun] at hfind; exact hfind.elim
  | ok r =>
    obtain ⟨a, u⟩ := r
    rw [hrun] at hfind
    obtain ⟨-, ha⟩ := hfind
    cases hf : tables s.mem root (path va) with
    | none =>
      rw [hf, Option.map_none] at ha
      rw [ha, Option.map_none]
    | some f =>
      rw [hf, Option.map_some] at ha
      rw [ha, Option.map_some]

structure WellFormed (s : Phys) (root : Frame) : Prop where
  distinct : Distinct s.mem root
  used : ∀ p f, tables s.mem root p = some f → f ∉ s.freelist
  nodup : s.freelist.Nodup

open Classical in
/-- The pages that are neither free nor page-table pages, each as its own place. -/
noncomputable def others (s : Phys) (root : Frame) (f : Frame) : Option Frame :=
  if f ∉ s.freelist ∧ ∀ p, tables s.mem root p ≠ some f then some f else none

theorem WellFormed.tree (h : WellFormed s root) : Tree s root (others s root) [] := by
  have hothers : ∀ {g f}, others s root g = some f → g = f ∧ f ∉ s.freelist ∧ ∀ p, tables s.mem root p ≠ some f := by
    intro g f hg
    rw [others] at hg
    split at hg
    · cases hg
      exact ⟨rfl, ‹_›⟩
    · cases hg
  refine ⟨⟨fun f => ⟨fun hf => ?_, ?_⟩, ?_, fun _ hc => absurd hc List.not_mem_nil, List.nodup_nil⟩, h.nodup⟩
  · by_cases htab : ∃ p, tables s.mem root p = some f
    · obtain ⟨p, hp⟩ := htab
      exact .inl ⟨Sum.inl p, hp⟩
    · exact .inl ⟨Sum.inr f, if_pos ⟨hf, fun p hp => htab ⟨p, hp⟩⟩⟩
  · rintro (⟨p | g, hp⟩ | hc)
    · exact h.used p f hp
    · exact (hothers hp).2.1
    · exact absurd hc List.not_mem_nil
  · rintro (p | g) (q | g') f hp hq
    · rw [h.distinct p q f hp hq]
    · exact absurd hp ((hothers hq).2.2 p)
    · exact absurd hq ((hothers hp).2.2 q)
    · rw [(hothers hp).1, (hothers hq).1]

theorem Tree.wellFormed {P : Type} {ext : P → Option Frame} {held : List Frame} (h : Tree s root ext held) :
    WellFormed s root :=
  ⟨h.distinct, fun _ _ hp => h.not_free hp, h.nodup⟩

/-! ## Unmapping -/

/-- `va'` is in one of the `n` pages from page `v` on. -/
def InRange (v n : Nat) (va' : BitVec 64) : Prop := v ≤ vpn va' ∧ vpn va' < v + n

instance (v n : Nat) (va' : BitVec 64) : Decidable (InRange v n va') := inferInstanceAs (Decidable (_ ∧ _))

/-- The page of a mapping is no page-table page. -/
def Plain (s : Phys) (root : Frame) (va : BitVec 64) : Prop :=
  ∀ w, leaf s.mem root va = some w → ∀ p, tables s.mem root p ≠ some (pteFrame w)

/-- The page of a mapping is not one that `kfree()` accepts. -/
def Foreign (s : Phys) (root : Frame) (va : BitVec 64) : Prop :=
  ∃ w, leaf s.mem root va = some w ∧ ¬ s.InPool (pteFrame w)

/-- The mappings of the range have gone. -/
structure Cleared (s t : Phys) (root : Frame) (v n : Nat) : Prop where
  kend : t.kend = s.kend
  table : tables t.mem root = tables s.mem root
  leaf : ∀ va < maxva, leaf t.mem root va = if InRange v n va then none else leaf s.mem root va

theorem Cleared.refl (s : Phys) (root : Frame) (v : Nat) : Cleared s s root v 0 := by
  refine ⟨rfl, rfl, fun va _ => (if_neg fun hin => ?_).symm⟩
  exact absurd hin.2 (Nat.not_lt.mpr hin.1)

/-- One more mapping goes. -/
theorem cleared_snoc {v k : Nat} {u : Phys} (h : Cleared s t root v k) (hkend : u.kend = t.kend)
    (htab : tables u.mem root = tables t.mem root)
    (hleaf : ∀ va < maxva, leaf u.mem root va = if vpn va = v + k then none else leaf t.mem root va) :
    Cleared s u root v (k + 1) := by
  refine ⟨hkend.trans h.kend, htab.trans h.table, fun va hva => ?_⟩
  rw [hleaf va hva, h.leaf va hva]
  by_cases hk : vpn va = v + k
  · rw [if_pos hk, if_pos ⟨by omega, by omega⟩]
  · rw [if_neg hk]
    by_cases hin : InRange v k va
    · rw [if_pos hin, if_pos ⟨hin.1, Nat.lt_succ_of_lt hin.2⟩]
    · rw [if_neg hin, if_neg]
      rintro ⟨hle, hlt⟩
      exact hin ⟨hle, by omega⟩

/-- One page is unmapped, and freed if the caller wants so. -/
theorem unmapPage_spec {R : VmPanic → Prop} {doFree : Bool} (h : Distinct s.mem root) (hva : va < maxva)
    (hplain : doFree = true → Plain s root va) (hR : doFree = true → Foreign s root va → R .kfree) :
    Runs R (unmapPage root doFree va) s fun _ t => t.kend = s.kend ∧ tables t.mem root = tables s.mem root ∧
      ∀ va' < maxva, leaf t.mem root va' = if vpn va' = vpn va then none else leaf s.mem root va' := by
  unfold unmapPage
  refine lookup_bind hva (fun hnone => ?_) fun f hf => ?_
  · exact .pure ⟨rfl, rfl, leaf_of_unmapped hva (by rw [leaf, hnone, Option.bind_none])⟩
  · refine getPte_bind ?_
    by_cases hv : s.mem.pte f (px 0 va) &&& pteV = 0
    · rw [if_pos hv]
      exact .pure ⟨rfl, rfl, leaf_of_unmapped hva (by rw [leaf_of_tables hf, (valid_eq_none_iff _).mpr hv])⟩
    · have hleaf : leaf s.mem root va = some (s.mem.pte f (px 0 va)) := by rw [leaf_of_tables hf, valid_of_ne hv]
      rw [if_neg hv]
      cases doFree with
      | false =>
        rw [if_neg (by decide)]
        refine .of_modify ⟨rfl, tables_setPte h hf 0, fun va' hva' => ?_⟩
        rw [leaf_setPte h hf 0 hva hva', valid_zero]
      | true =>
        rw [if_pos rfl]
        by_cases hpool : s.InPool (pteFrame (s.mem.pte f (px 0 va)))
        · -- the page that is filled is no page-table page
          have hmem : ∀ p g, tables s.mem root p = some g →
              s.mem.fill (pteFrame (s.mem.pte f (px 0 va))) 1 g = s.mem g := by
            intro p g hg
            refine fill_of_ne ?_
            rintro rfl
            exact hplain rfl _ hleaf p hg
          have htab : tables (s.mem.fill (pteFrame (s.mem.pte f (px 0 va))) 1) root = tables s.mem root :=
            funext (tables_congr hmem)
          have hdistinct : Distinct (s.mem.fill (pteFrame (s.mem.pte f (px 0 va))) 1) root := by
            rw [Distinct, htab]
            exact h
          have hf' : tables (s.mem.fill (pteFrame (s.mem.pte f (px 0 va))) 1) root (path va) =
              some f := by rw [htab, hf]
          refine kfree_bind hpool (.of_modify ⟨rfl, (tables_setPte hdistinct hf' 0).trans htab, fun va' hva' => ?_⟩)
          rw [leaf_setPte hdistinct hf' 0 hva hva', valid_zero, leaf_congr hmem]
        · exact kfree_panic_bind hpool (hR rfl ⟨_, hleaf, hpool⟩)

theorem uvmunmap_spec {npages : BitVec 64} {doFree : Bool} (h : Distinct s.mem root) (haligned : va.toNat % 4096 = 0)
    (hrange : va.toNat + npages.toNat * 4096 ≤ 2 ^ 38)
    (hplain : doFree = true → ∀ va' < maxva, InRange (vpn va) npages.toNat va' → Plain s root va') :
    Runs (fun e => e = .kfree ∧ doFree = true ∧ ∃ va' < maxva, InRange (vpn va) npages.toNat va' ∧ Foreign s root va')
      (uvmunmap root va npages doFree) s fun _ t => Cleared s t root (vpn va) npages.toNat := by
  have hmod : va % 4096#64 = 0 := by
    apply BitVec.eq_of_toNat_eq
    rw [BitVec.toNat_umod]
    exact haligned
  unfold uvmunmap
  refine panicIf_bind (fun hc => absurd hmod hc) fun _ => ?_
  rw [turns_pages hrange]
  refine Runs.forM_range (I := fun k t => Cleared s t root (vpn va) k) (.refl ..) fun k hk t ht => ?_
  have hnat : (va + BitVec.ofNat 64 (k * pgsize)).toNat = va.toNat + k * 4096 := toNat_page (by omega)
  have hvpn : vpn (va + BitVec.ofNat 64 (k * pgsize)) = vpn va + k := by
    rw [vpn, vpn, hnat]
    omega
  have hlt : va + BitVec.ofNat 64 (k * pgsize) < maxva := by
    show (va + BitVec.ofNat 64 (k * pgsize)).toNat < 2 ^ 38
    rw [hnat]
    omega
  have hin : InRange (vpn va) npages.toNat (va + BitVec.ofNat 64 (k * pgsize)) := by
    rw [InRange, hvpn]
    omega
  -- this page has not been reached yet
  have hleaf : leaf t.mem root (va + BitVec.ofNat 64 (k * pgsize)) =
      leaf s.mem root (va + BitVec.ofNat 64 (k * pgsize)) := by
    rw [ht.leaf _ hlt, if_neg]
    rw [InRange, hvpn]
    omega
  have hdistinct : Distinct t.mem root := by
    rw [Distinct, ht.table]
    exact h
  refine (unmapPage_spec hdistinct hlt (fun hfree => ?_) fun hfree hforeign => ?_).mono fun _ u hu => ?_
  · rw [Plain, hleaf, ht.table]
    exact hplain hfree _ hlt hin
  · obtain ⟨w, hw, hpool⟩ := hforeign
    exact ⟨rfl, hfree, _, hlt, hin, w, hleaf ▸ hw, fun hc => hpool ((inPool_congr ht.kend).mpr hc)⟩
  · rw [hvpn] at hu
    exact cleared_snoc ht hu.1 hu.2.1 hu.2.2

/-! ## The map -/

/-- The mapping of `va`: the entry that `walk()` finds, if it is valid. -/
def mapping (s : Phys) (root : Frame) (va : BitVec 64) : Option (BitVec 64) := (lookup s root va).bind valid

theorem mapping_eq (hva : va < maxva) : mapping s root va = leaf s.mem root va := by
  rw [mapping, lookup_eq hva, leaf_eq_entry]

/-- `walk()` finds the same entry, or an invalid one where it found none. -/
def Unchanged (s t : Phys) (root : Frame) (va : BitVec 64) : Prop :=
  lookup t root va = lookup s root va ∨ lookup s root va = none ∧ ∃ w, lookup t root va = some w ∧ w &&& pteV = 0

theorem unchanged_of_entry (hva : va < maxva) (hleaf : leaf t.mem root va = leaf s.mem root va)
    (hentry : ∀ w, entry s.mem root va = some w → entry t.mem root va = some w) : Unchanged s t root va := by
  rw [Unchanged, lookup_eq hva, lookup_eq hva]
  cases hs : entry s.mem root va with
  | some w => exact .inl (hentry w hs)
  | none =>
    cases ht : entry t.mem root va with
    | none => exact .inl rfl
    | some w =>
      rw [leaf_eq_entry, leaf_eq_entry, hs, ht, Option.bind_some, Option.bind_none] at hleaf
      exact .inr ⟨rfl, w, rfl, (valid_eq_none_iff w).mp hleaf⟩

/-- **A page table is a finite map** from page numbers to addresses and permissions: `mappages()` adds one mapping or
none, `uvmunmap()` removes those of its range, and the entries hold what has been stored. -/
theorem page_table_is_a_map (h : WellFormed s root) :
    (∀ va pa perm, va < maxva → va.toNat % 4096 = 0 → perm.toNat < 2 ^ 10 →
      (pte2pa (pa2pte (Frame.addr pa) ||| perm) = pa.addr ∧ pteFlags (pa2pte pa.addr ||| perm) = perm) ∧
      Runs (fun e => e = .remap ∧ mapping s root va ≠ none) (mappages root va 4096#64 pa perm) s fun r t =>
        WellFormed t root ∧
        ((r = 0 ∧ (∃ w, lookup t root va = some w ∧ pte2pa w = pa.addr ∧ pteFlags w = perm ||| pteV) ∧
            ∀ va' < maxva, va'.toNat % 4096 = 0 → va' ≠ va → Unchanged s t root va') ∨
          (r = -1 ∧ ∀ va' < maxva, mapping t root va' = mapping s root va' ∧ Unchanged s t root va'))) ∧
    ∀ (va npages : BitVec 64) (doFree : Bool), va.toNat % 4096 = 0 → va.toNat + npages.toNat * 4096 ≤ maxva.toNat →
      (doFree = true → ∀ va' < maxva, InRange (vpn va) npages.toNat va' → Plain s root va') →
      Runs (fun e => e = .kfree ∧ doFree = true ∧ ∃ va' < maxva, InRange (vpn va) npages.toNat va' ∧ Foreign s root va')
        (uvmunmap root va npages doFree) s fun _ t => ∀ va' < maxva,
          mapping t root va' = if InRange (vpn va) npages.toNat va' then none else mapping s root va' := by
  refine ⟨fun va pa perm hva haligned hperm => ⟨⟨?_, pteFlags_mk hperm⟩, ?_⟩,
  fun va npages doFree haligned hrange hplain => ?_⟩
  · rw [← addr_pteFrame, pteFrame_mk hperm]
  · have hmapped : leaf s.mem root va ≠ none → (VmPanic.remap = .remap ∧ mapping s root va ≠ none) := fun hc =>
      ⟨rfl, (mapping_eq hva).symm ▸ hc⟩
    refine (mappages_spec h.tree hva haligned hmapped).mono fun r t ⟨he, hcase⟩ => ⟨he.tree.wellFormed, ?_⟩
    rcases hcase with ⟨hr, -, -, hleaf, hnew, hold⟩ | ⟨hr, -, -, hleaf, hold⟩
    · refine .inl ⟨hr, ⟨_, (lookup_eq hva).trans hnew, ?_, ?_⟩, fun va' hva' haligned' hne => ?_⟩
      · rw [← addr_pteFrame, BitVec.or_assoc, pteFrame_mk (perm_or_lt hperm)]
      · rw [BitVec.or_assoc, pteFlags_mk (perm_or_lt hperm)]
      · have hvpn : vpn va' ≠ vpn va := fun hc => hne (eq_of_vpn haligned' haligned hc)
        exact unchanged_of_entry hva' (by rw [hleaf va' hva', if_neg hvpn]) (hold va' hva' hvpn)
    · refine .inr ⟨hr, fun va' hva' => ⟨?_, unchanged_of_entry hva' (hleaf va') (hold va')⟩⟩
      rw [mapping_eq hva', mapping_eq hva', hleaf]
  · refine (uvmunmap_spec h.distinct haligned hrange hplain).mono fun _ t ht va' hva' => ?_
    rw [mapping_eq hva', mapping_eq hva', ht.leaf va' hva']

/-- A page table without entries. -/
theorem wellFormed_of_empty (hempty : ∀ i, child s.mem root i = none) (hroot : root ∉ s.freelist)
    (hnodup : s.freelist.Nodup) : WellFormed s root  where
  distinct p q f hp hq := by
    rw [(node_of_empty hempty hp).1, (node_of_empty hempty hq).1]
  used p f hp := by
    rw [(node_of_empty hempty hp).2]
    exact hroot
  nodup := hnodup

theorem leaf_of_empty (hempty : ∀ i, child s.mem root i = none) : leaf s.mem root va = none := by
  rw [leaf]
  cases hf : tables s.mem root (path va) with
  | none => rw [Option.bind_none]
  | some f => exact absurd (node_of_empty hempty hf).1 (List.cons_ne_nil _ _)

/-- Memory of zeros, with six free pages. -/
def blank : Phys := { mem := fun _ _ => 0, freelist := [1, 2, 3, 4, 5, 6], kend := 4096 }

theorem blank_empty (root : Frame) (i : Fin 512) : child blank.mem root i = none := by
  have hpte : blank.mem.pte root i = 0 := by
    rw [Mem.pte, blank, Bytes.le_zero]
    rfl
  rw [child, hpte, valid_zero, Option.map_none]

theorem page_table_is_a_map_blank :
    WellFormed blank 0 ∧
    Runs (fun e => e = .remap ∧ mapping blank 0 4096#64 ≠ none) (mappages 0 4096#64 4096#64 7 pteR) blank (fun r t =>
      WellFormed t 0 ∧
      ((r = 0 ∧ (∃ w, lookup t 0 4096#64 = some w ∧ pte2pa w = Frame.addr 7 ∧ pteFlags w = pteR ||| pteV) ∧
          ∀ va' < maxva, va'.toNat % 4096 = 0 → va' ≠ 4096#64 → Unchanged blank t 0 va') ∨
        (r = -1 ∧ ∀ va' < maxva, mapping t 0 va' = mapping blank 0 va' ∧ Unchanged blank t 0 va'))) ∧
    Runs (fun e => e = .kfree ∧ true = true ∧ ∃ va' < maxva, InRange 1 2 va' ∧ Foreign blank 0 va')
      (uvmunmap 0 4096#64 2#64 true) blank fun _ t => ∀ va' < maxva,
        mapping t 0 va' = if InRange 1 2 va' then none else mapping blank 0 va' := by
  have hwell : WellFormed blank 0 := wellFormed_of_empty (blank_empty 0) (by decide) (by decide)
  refine ⟨hwell, ?_, ?_⟩
  · exact ((page_table_is_a_map hwell).1 4096#64 7 pteR (by decide) (by decide) (by decide)).2
  · refine (page_table_is_a_map hwell).2 4096#64 2#64 true (by decide) (by decide) fun _ va' _ _ w hw => ?_
    rw [leaf_of_empty (blank_empty 0)] at hw
    cases hw

end

end Xv6.Vm
