import Xv6.Vm.Space

/-!
# Pages taken one after another

`uvmalloc()` and `uvmcopy()` take pages, fill them, and map them at consecutive page numbers; when memory runs out they
unmap what they have mapped.

* `Filled n s t root ext b v want` : pages `b, …, v - 1` have been mapped as `want` says, to pages that were free;
* `Filled.skip`, `Filled.next`, `Filled.stop` : a turn of the loop maps nothing, maps a page, or finds no memory;
* `Filled.undo` : after the pages have been unmapped, everything is `Restored`.
-/

namespace Xv6.Vm
open Radix Alloc Hoare

section
variable {P : Type} {s t u : Phys} {root f r : Frame} {ext : P → Option Frame} {held : List Frame}
  {va perm : BitVec 64} {n b v v' : Nat} {x : Nat → UInt8} {want : Nat → Option (BitVec 64 × (Nat → UInt8))}

structure Filled (n : Nat) (s t : Phys) (root : Frame) (ext : P → Option Frame) (b v : Nat)
    (want : Nat → Option (BitVec 64 × (Nat → UInt8))) : Prop where
  space : Space n t root ext []
  keeps : Keeps s t root (Sum.elim (leafFrames n s.mem root) ext) []
  empty : ∀ v', b ≤ v' → v' < v → leaf s.mem root (vaOf v') = none
  gap : ∀ v', b ≤ v' → v' < v → want v' = none → leaf t.mem root (vaOf v') = none
  page : ∀ v' perm x, b ≤ v' → v' < v → want v' = some (perm, x) →
    ∃ r ∈ s.freelist, leaf t.mem root (vaOf v') = some (pa2pte r.addr ||| perm ||| pteV) ∧ t.mem r = x
  rest : ∀ va < maxva, ¬ (b ≤ vpn va ∧ vpn va < v) → leaf t.mem root va = leaf s.mem root va

/-- The mappings, and what belongs to others, are as before. -/
structure Restored (n : Nat) (s t : Phys) (root : Frame) (ext : P → Option Frame) : Prop where
  space : Space n t root ext []
  keeps : Keeps s t root (Sum.elim (leafFrames n s.mem root) ext) []
  leaf : ∀ va < maxva, leaf t.mem root va = leaf s.mem root va

theorem Keeps.of_ext {P' : Type} {ext' : P' → Option Frame} (h : Keeps s t root ext held)
    (hsub : ∀ q f, ext' q = some f → ∃ q', ext q' = some f) : Keeps s t root ext' held :=
  ⟨h.kend, h.table, fun f hf => h.mem f (hf.imp_left fun ⟨q, hq⟩ => hsub q f hq), h.low⟩

theorem Keeps.of_leafFrames {lf lf' : Nat → Option Frame} (h : Keeps s t root (Sum.elim lf ext) held)
    (hsub : ∀ v f, lf' v = some f → lf v = some f) : Keeps s t root (Sum.elim lf' ext) held := by
  refine h.of_ext ?_
  rintro (v | q) f hf
  · exact ⟨Sum.inl v, hsub v f hf⟩
  · exact ⟨Sum.inr q, hf⟩

theorem Filled.refl (hs : Space n s root ext []) (b : Nat) : Filled n s s root ext b b want :=
  ⟨hs, .refl .., fun _ hle hlt => absurd hlt (Nat.not_lt.mpr hle), fun _ hle hlt => absurd hlt (Nat.not_lt.mpr hle),
    fun _ _ _ hle hlt => absurd hlt (Nat.not_lt.mpr hle), fun _ _ _ => rfl⟩

/-- User pages that were there still are. -/
theorem Filled.kept (h : Filled n s t root ext b v want) (hf : leafFrames n s.mem root v' = some f) :
    leafFrames n t.mem root v' = some f := by
  have hlt := lt_of_leafFrames hf
  have hlt' := hlt.trans_le h.space.bound
  have hout : ¬ (b ≤ vpn (vaOf v') ∧ vpn (vaOf v') < v) := by
    rw [vpn_vaOf hlt']
    rintro ⟨hle, hv⟩
    rw [leafFrames_of_none (h.empty v' hle hv)] at hf
    cases hf
  rw [leafFrames_of_lt hlt, h.rest _ (vaOf_lt hlt') hout, ← leafFrames_of_lt hlt, hf]

theorem Filled.skip (h : Filled n s t root ext b v want) (hb : b ≤ v) (hv : v < 2 ^ 26)
    (hempty : leaf s.mem root (vaOf v) = none) (hw : want v = none) : Filled n s t root ext b (v + 1) want := by
  have hnone : leaf t.mem root (vaOf v) = none := by
    rw [h.rest _ (vaOf_lt hv) (by rw [vpn_vaOf hv]; omega), hempty]
  refine ⟨h.space, h.keeps, fun v' hle hlt => ?_, fun v' hle hlt hw' => ?_, fun v' perm x hle hlt hw' => ?_,
    fun va hva hout => h.rest va hva fun hin => hout ⟨hin.1, Nat.lt_succ_of_lt hin.2⟩⟩
  · rcases Nat.lt_succ_iff_lt_or_eq.mp hlt with hlt | rfl
    · exact h.empty v' hle hlt
    · exact hempty
  · rcases Nat.lt_succ_iff_lt_or_eq.mp hlt with hlt | rfl
    · exact h.gap v' hle hlt hw'
    · exact hnone
  · rcases Nat.lt_succ_iff_lt_or_eq.mp hlt with hlt | rfl
    · exact h.page v' perm x hle hlt hw'
    · rw [hw] at hw'
      cases hw'

/-- Pages mapped before stay as they are when page `v` is mapped, or could not be. -/
theorem Filled.stay (h : Filled n s t root ext b v want) (hv : v ≤ n)
    (hleaf : leaf u.mem root (vaOf v') = leaf t.mem root (vaOf v'))
    (hk : Keeps t u root (Sum.elim (leafFrames n t.mem root) ext) []) (hperm : perm.toNat < 2 ^ 10) (hle : b ≤ v')
    (hlt : v' < v) (hw : want v' = some (perm, x)) :
    ∃ r ∈ s.freelist, leaf u.mem root (vaOf v') = some (pa2pte r.addr ||| perm ||| pteV) ∧ u.mem r = x := by
  obtain ⟨r, hr, hleaf', hx⟩ := h.page v' perm x hle hlt hw
  have hframe : leafFrames n t.mem root v' = some r := by
    rw [leafFrames_of_lt (hlt.trans_le hv), hleaf', Option.map_some, BitVec.or_assoc, pteFrame_mk (perm_or_lt hperm)]
  exact ⟨r, hr, hleaf.trans hleaf', (hk.leaf hframe).trans hx⟩

section
variable (hperm : ∀ v perm x, want v = some (perm, x) → perm.toNat < 2 ^ 10)
include hperm

theorem Filled.next (hs : Space n s root ext []) (h : Filled n s t root ext b v want) (hb : b ≤ v) (hv : v < n)
    (hempty : leaf s.mem root (vaOf v) = none) (hw : want v = some (perm, x))
    (he : Extended n t u root ext [] v r x perm) : Filled n s u root ext b (v + 1) want := by
  have hlt26 : ∀ {v'}, v' < v + 1 → v' < 2 ^ 26 := fun hlt => (hlt.trans_le hv).trans_le hs.bound
  have hother : ∀ {v'}, v' < v → leaf u.mem root (vaOf v') = leaf t.mem root (vaOf v') := by
    intro v' hlt
    have h26 := hlt26 (Nat.lt_succ_of_lt hlt)
    rw [he.leaf _ (vaOf_lt h26), vpn_vaOf h26, if_neg (Nat.ne_of_lt hlt)]
  refine ⟨he.space, h.keeps.trans (he.keeps.of_leafFrames fun v f hf => h.kept hf), fun v' hle hlt => ?_,
    fun v' hle hlt hw' => ?_, fun v' perm' x' hle hlt hw' => ?_, fun va hva hout => ?_⟩
  · rcases Nat.lt_succ_iff_lt_or_eq.mp hlt with hlt | rfl
    · exact h.empty v' hle hlt
    · exact hempty
  · rcases Nat.lt_succ_iff_lt_or_eq.mp hlt with hlt | rfl
    · rw [hother hlt, h.gap v' hle hlt hw']
    · rw [hw] at hw'
      cases hw'
  · rcases Nat.lt_succ_iff_lt_or_eq.mp hlt with hlt | rfl
    · exact h.stay (Nat.le_of_lt hv) (hother hlt) he.keeps (hperm v' perm' x' hw') hle hlt hw'
    · rw [hw] at hw'
      cases hw'
      refine ⟨r, ?_, ?_, he.content⟩
      · exact hs.free_mono h.space h.keeps.outer (fun v f hf => h.kept hf) (List.mem_of_mem_head? he.fresh)
      · rw [he.leaf _ (vaOf_lt (hlt26 hlt)), vpn_vaOf (hlt26 hlt), if_pos rfl]
  · rw [he.leaf va hva, if_neg (by omega), h.rest va hva fun hin => hout ⟨hin.1, Nat.lt_succ_of_lt hin.2⟩]

theorem Filled.stop (h : Filled n s t root ext b v want) (hv : v ≤ n) (hsp : Spared n t u root ext [] v) :
    Filled n s u root ext b v want := by
  refine ⟨hsp.space, h.keeps.trans (hsp.keeps.of_leafFrames fun v f hf => h.kept hf), h.empty,
    fun v' hle hlt hw => (hsp.leaf _).trans (h.gap v' hle hlt hw), fun v' perm x hle hlt hw => ?_,
    fun va hva hout => (hsp.leaf va).trans (h.rest va hva hout)⟩
  exact h.stay hv (hsp.leaf _) hsp.keeps (hperm v' perm x hw) hle hlt hw

end

/-- The pages are unmapped again. -/
theorem Filled.undo (h : Filled n s t root ext b v want) (hu : Unmapped n t u root ext [] fun v' => b ≤ v' ∧ v' < v) :
    Restored n s u root ext := by
  refine ⟨hu.space, ⟨hu.keeps.kend.trans h.keeps.kend, fun p f hp => hu.keeps.table p f (h.keeps.table p f hp), ?_,
    fun hl => hu.keeps.low (h.keeps.low hl)⟩, fun va hva => ?_⟩
  · rintro f (⟨v' | q, hf⟩ | hf)
    · have hout : ¬ (b ≤ v' ∧ v' < v) := by
        rintro ⟨hle, hlt⟩
        rw [Sum.elim_inl, leafFrames_of_none (h.empty v' hle hlt)] at hf
        cases hf
      rw [hu.contents v' f hout (h.kept hf), h.keeps.leaf hf]
    · rw [hu.keeps.mem f (.inl ⟨q, hf⟩), h.keeps.outer.mem f (.inl ⟨q, hf⟩)]
    · exact absurd hf List.not_mem_nil
  · rw [hu.leaf va hva]
    by_cases hin : b ≤ vpn va ∧ vpn va < v
    · rw [if_pos hin, ← leaf_vaOf hva, h.empty _ hin.1 hin.2]
    · rw [if_neg hin, h.rest va hva hin]

theorem Restored.leafFrames_eq (h : Restored n s t root ext) : leafFrames n t.mem root = leafFrames n s.mem root := by
  funext v
  by_cases hv : v < n
  · rw [leafFrames_of_lt hv, leafFrames_of_lt hv, h.leaf _ (vaOf_lt (hv.trans_le h.space.bound))]
  · rw [leafFrames, leafFrames, if_neg hv, if_neg hv]

/-- All pages that were taken are free again, or page-table pages. -/
theorem Restored.free (h : Restored n s t root ext) (hs : Space n s root ext []) (hf : f ∈ s.freelist) :
    f ∈ t.freelist ∨ ∃ p, tables t.mem root p = some f :=
  hs.free_back h.space (fun v f hv => by rwa [h.leafFrames_eq] at hv) hf

end

end Xv6.Vm
