import Xv6.Vm.Space

/-!
# Page tables that go

`freewalk()` gives back every page-table page once, provided that no user page is mapped any more.

* `Freeing s t root ext held own` : of the page-table pages of `root` in `s` those in `own` are left in `t`;
* `freewalk_spec` : what the recursion does to the pages below one of them;
* `freewalk_frees` : the whole page table goes, and what others own is as it was.
-/

namespace Xv6.Vm
open Radix Alloc Hoare Function

section
variable {P : Type} {s t u : Phys} {root : Frame} {ext : P → Option Frame} {held : List Frame}
  {f g : Frame} {p q : List (Fin 512)} {own own' : List (Fin 512) → Option Frame} {i : Fin 512} {R : VmPanic → Prop}

structure Freeing (s t : Phys) (root : Frame) (ext : P → Option Frame) (held : List Frame)
    (own : List (Fin 512) → Option Frame) : Prop where
  kend : t.kend = s.kend
  sub : ∀ q f, own q = some f → tables s.mem root q = some f
  exact : Exact t.Used (Sum.elim own ext) held
  heap : Heap t
  entry : ∀ q f i, own q = some f → own (q ++ [i]) = tables s.mem root (q ++ [i]) → t.mem.pte f i = s.mem.pte f i
  mem : ∀ f, (∃ q, ext q = some f) ∨ f ∈ held → t.mem f = s.mem f

/-- The page at `p` and what is below it are gone. -/
def cut (own : List (Fin 512) → Option Frame) (p q : List (Fin 512)) : Option Frame := if p <+: q then none else own q

/-- What is below the slots before `i` of the page at `p` is gone. -/
def cutBelow (own : List (Fin 512) → Option Frame) (p : List (Fin 512)) (i : Nat) (q : List (Fin 512)) : Option Frame :=
  if ∃ j : Fin 512, j.val < i ∧ p ++ [j] <+: q then none else own q

theorem cutBelow_zero : cutBelow own p 0 = own := by
  funext q
  exact if_neg fun ⟨_, hj, _⟩ => Nat.not_lt_zero _ hj

theorem cutBelow_succ : cutBelow own p (i.val + 1) = cut (cutBelow own p i) (p ++ [i]) := by
  funext q
  rw [cut]
  by_cases hi : p ++ [i] <+: q
  · rw [if_pos hi, cutBelow, if_pos ⟨i, Nat.lt_succ_self _, hi⟩]
  · rw [if_neg hi, cutBelow, cutBelow]
    refine if_congr ⟨fun ⟨j, hj, hq⟩ => ⟨j, ?_, hq⟩, fun ⟨j, hj, hq⟩ => ⟨j, Nat.lt_succ_of_lt hj, hq⟩⟩ rfl rfl
    refine Nat.lt_of_le_of_ne (Nat.le_of_lt_succ hj) fun heq => hi ?_
    rwa [← Fin.ext heq]

theorem cut_snoc_ne (h : p ++ [i] <+: q) : cutBelow own p i q = own q := by
  refine if_neg fun ⟨j, hj, hq⟩ => ?_
  obtain ⟨r, rfl⟩ := h
  rw [List.append_assoc, List.prefix_append_right_inj, List.singleton_append, List.cons_prefix_cons] at hq
  exact Nat.lt_irrefl _ (hq.1 ▸ hj)

theorem cutBelow_self {k : Nat} : cutBelow own p k p = own p := by
  refine if_neg fun ⟨j, _, hq⟩ => ?_
  have hlen := hq.length_le
  rw [List.length_append] at hlen
  exact absurd hlen (Nat.not_succ_le_self _)

theorem Freeing.not_ext (h : Freeing s t root ext held own) (hp : own p = some f)
    (hg : (∃ q, ext q = some g) ∨ g ∈ held) : g ≠ f := by
  rintro rfl
  have hown : Sum.elim own ext (Sum.inl p) = some g := by rw [Sum.elim_inl, hp]
  rcases hg with ⟨q, hq⟩ | hg
  · have hq' : Sum.elim own ext (Sum.inr q) = some g := by rw [Sum.elim_inr, hq]
    cases h.exact.once hown hq'
  · exact h.exact.not_held hown hg

theorem Freeing.eq_of_page (h : Freeing s t root ext held own) (hp : own p = some f) (hq : own q = some f) : q = p := by
  have hpq := h.exact.once (p := Sum.inl q) (q := Sum.inl p) (b :=
    f) (by rw [Sum.elim_inl, hq]) (by rw [Sum.elim_inl, hp])
  exact Sum.inl.inj hpq

/-- The entry of a page-table page that is gone is cleared. -/
theorem Freeing.clear (h : Freeing s t root ext held own) (hp : own p = some f)
    (hi : own (p ++ [i]) ≠ tables s.mem root (p ++ [i])) :
    Freeing s { t with mem := t.mem.setPte f i 0 } root ext held own where
  kend := h.kend
  sub := h.sub
  exact := h.exact
  heap := ⟨h.heap.nodup, h.heap.pool⟩
  entry q g j hq hj := by
    rw [← h.entry q g j hq hj]
    refine pte_setPte_ne ?_
    by_contra hc
    rw [not_or, not_not, not_not] at hc
    obtain ⟨rfl, rfl⟩ := hc
    rw [h.eq_of_page hp hq] at hj
    exact hi hj
  mem g hg := (setPte_of_ne (h.not_ext hp hg)).trans (h.mem g hg)

/-- A page-table page with nothing below it is freed. -/
theorem Freeing.free [DecidableEq P] (h : Freeing s t root ext held own) (hp : own p = some f) (hpool : t.InPool f) :
    Freeing s { t with mem := t.mem.fill f 1, freelist := f :: t.freelist } root ext held (update own p none) where
  kend := h.kend
  sub q g hq := by
    by_cases hqp : q = p
    · rw [hqp, update_self] at hq
      cases hq
    · rw [update_of_ne hqp] at hq
      exact h.sub q g hq
  exact := by
    have hown : Sum.elim own ext (Sum.inl p) = some f := by rw [Sum.elim_inl, hp]
    have hdetach := h.exact.detach hown
    rw [Sum.update_elim_inl] at hdetach
    refine hdetach.free fun c => ?_
    show c ∉ f :: t.freelist ↔ c ≠ f ∧ c ∉ t.freelist
    rw [List.mem_cons, not_or]
  heap := by
    have hused : t.Used f := h.exact.used_of_own (p := Sum.inl p) (by rw [Sum.elim_inl, hp])
    refine ⟨List.nodup_cons.mpr ⟨hused, h.heap.nodup⟩, fun g hg => ?_⟩
    rcases List.mem_cons.mp hg with rfl | hg
    · exact hpool
    · exact h.heap.pool g hg
  entry q g j hq hj := by
    have hqp : q ≠ p := by
      rintro rfl
      rw [update_self] at hq
      cases hq
    rw [update_of_ne hqp] at hq
    have hj' : own (q ++ [j]) = tables s.mem root (q ++ [j]) := by
      by_cases hqj : q ++ [j] = p
      · rw [hqj, update_self] at hj
        rw [hqj, ← hj]
        exact absurd ((h.sub p f hp).symm.trans hj.symm) (Option.some_ne_none f)
      · rwa [update_of_ne hqj] at hj
    rw [← h.entry q g j hq hj']
    refine pte_congr (fill_of_ne ?_)
    rintro rfl
    exact hqp (h.eq_of_page hp hq)
  mem g hg := (fill_of_ne (h.not_ext hp hg)).trans (h.mem g hg)

theorem Freeing.congr (h : Freeing s t root ext held own) (heq : ∀ q, own' q = own q) :
    Freeing s t root ext held own' := by
  rwa [show own' = own from funext heq]

/-- Nothing is below an entry that is not valid. -/
theorem tables_below {m : Mem} (hp : tables m root p = some f) (hv : valid (m.pte f i) = none) (hq : p ++ [i] <+: q) :
    tables m root q = none := by
  obtain ⟨r, rfl⟩ := hq
  rw [tables, node]
  split
  · rw [descend_append, descend_snoc, descend_of_node hp, Option.bind_some, child, hv, Option.map_none,
      Option.bind_none]
  · rfl

theorem cut_parent : cut own (p ++ [i]) p = own p := by
  refine if_neg fun hq => ?_
  have hlen := hq.length_le
  rw [List.length_append] at hlen
  exact absurd hlen (Nat.not_succ_le_self _)

/-- When all slots of a page are done, the page is what is left. -/
theorem update_cutBelow : update (cutBelow own p 512) p none = cut own p := by
  funext q
  by_cases hqp : q = p
  · rw [hqp, update_self, cut, if_pos (List.prefix_refl _)]
  · rw [update_of_ne hqp, cutBelow, cut]
    refine if_congr ⟨fun ⟨j, _, hq⟩ => (List.prefix_append p [j]).trans hq, ?_⟩ rfl rfl
    rintro ⟨r, rfl⟩
    cases r with
    | nil => exact absurd (List.append_nil p) hqp
    | cons j r => exact ⟨j, j.isLt, r, by rw [List.append_assoc, List.singleton_append]⟩

/-- What `freewalk()` of a page needs to know of the page table. -/
structure Bare (s : Phys) (root : Frame) : Prop where
  sound : Sound s root
  bare : ∀ p f i, p.length = 2 → tables s.mem root p = some f → valid (s.mem.pte f i) = none

theorem freewalk_step [DecidableEq P] {level : Nat} (hs : Bare s root) (hlen : p.length ≤ 2)
    (hrec : ∀ {i g t own}, Freeing s t root ext held own → (∀ q, p ++ [i] <+: q → own q = tables s.mem root q) →
      own (p ++ [i]) = some g → Runs R (freewalk level g) t fun _ u => Freeing s u root ext held (cut own (p ++ [i])))
    (h : Freeing s t root ext held own) (hown : ∀ q, p <+: q → own q = tables s.mem root q) (hp : own p = some f) :
    Runs R (freewalk (level + 1) f) t fun _ u => Freeing s u root ext held (cut own p) := by
  have hsp := h.sub p f hp
  have hbelow : ∀ i q, p ++ [i] <+: q → cutBelow own p i.val q = tables s.mem root q := fun i q hq => by
    rw [cut_snoc_ne hq]
    exact hown q ((List.prefix_append p [i]).trans hq)
  generalize hl : List.finRange 512 = l
  rw [freewalk_succ hl.symm]
  refine .seq (Runs.forM_finRange (I := fun i u => Freeing s u root ext held (cutBelow own p i)) hl.symm ?_
    fun i u hu => ?_)
    fun _ u hu => ?_
  · rwa [cutBelow_zero]
  · have hpu : cutBelow own p i.val p = some f := cutBelow_self.trans hp
    have hpte : u.mem.pte f i = s.mem.pte f i := hu.entry p f i hpu (hbelow i _ (List.prefix_refl _))
    refine getPte_bind ?_
    rw [hpte, cutBelow_succ]
    by_cases hv : s.mem.pte f i &&& pteV ≠ 0
    · have hvalid := valid_of_ne hv
      have hlt : p.length < 2 := by
        refine Nat.lt_of_le_of_ne hlen fun heq => ?_
        rw [hs.bare p f i heq hsp] at hvalid
        cases hvalid
      have hchild : tables s.mem root (p ++ [i]) = some (pteFrame (s.mem.pte f i)) := by
        rw [tables_snoc hsp hlt, child, hvalid, Option.map_some]
      rw [if_pos ⟨hv, hs.sound.plain p f i _ hlt hsp hvalid⟩]
      refine (hrec hu (hbelow i) ((hbelow i _ (List.prefix_refl _)).trans hchild)).seq fun _ v hv => ?_
      refine .of_modify (hv.clear (p := p) ?_ ?_)
      · rw [cut_parent, hpu]
      · rw [cut, if_pos (List.prefix_refl _), hchild]
        exact (Option.some_ne_none _).symm
    · rw [if_neg fun hc => hv hc.1, panicIf, if_neg hv]
      refine .pure (hu.congr fun q => ?_)
      rw [cut]
      split
      · have hnone := (valid_eq_none_iff (s.mem.pte f i)).mpr (not_not.mp hv)
        rw [hbelow i q ‹_›, tables_below hsp hnone ‹_›]
      · rfl
  · have hpu : cutBelow own p 512 p = some f := cutBelow_self.trans hp
    have hpool : u.InPool f := by
      rw [Phys.InPool, hu.kend]
      exact hs.sound.table p f hsp
    refine (kfree_spec hpool).mono fun _ v hv => ?_
    rw [hv, ← update_cutBelow]
    exact hu.free hpu hpool

theorem freewalk_spec [DecidableEq P] (hs : Bare s root) (level : Nat) (hlen : p.length + level = 3)
    (h : Freeing s t root ext held own) (hown : ∀ q, p <+: q → own q = tables s.mem root q) (hp : own p = some f) :
    Runs R (freewalk level f) t fun _ u => Freeing s u root ext held (cut own p) := by
  induction level generalizing p f t own with
  | zero =>
    have hle := length_le_of_node (h.sub p f hp)
    omega
  | succ level ih =>
    refine freewalk_step hs (by omega) (fun hu hown' hg => ih ?_ hu hown' hg) h hown hp
    rw [List.length_append, List.length_singleton]
    omega

/-! ## The whole page table -/

/-- Everything but what belongs to others is free. -/
structure Freed (s t : Phys) (ext : P → Option Frame) (held : List Frame) : Prop where
  kend : t.kend = s.kend
  exact : Exact t.Used ext held
  heap : Heap t
  mem : ∀ f, (∃ q, ext q = some f) ∨ f ∈ held → t.mem f = s.mem f

/-- A page that the running function holds is freed. -/
theorem Freed.give (h : Freed s t ext (f :: held)) (hpool : t.InPool f) :
    Freed s { t with mem := t.mem.fill f 1, freelist := f :: t.freelist } ext held where
  kend := h.kend
  exact := h.exact.free fun c => by
    show c ∉ f :: t.freelist ↔ c ≠ f ∧ c ∉ t.freelist
    rw [List.mem_cons, not_or]
  heap := by
    refine ⟨List.nodup_cons.mpr ⟨h.exact.used_of_held List.mem_cons_self, h.heap.nodup⟩, fun g hg => ?_⟩
    rcases List.mem_cons.mp hg with rfl | hg
    · exact hpool
    · exact h.heap.pool g hg
  mem g hg := by
    have hne : g ≠ f := by
      rintro rfl
      rcases hg with ⟨q, hq⟩ | hg
      · exact h.exact.not_held hq List.mem_cons_self
      · exact (List.nodup_cons.mp h.exact.nodup).1 hg
    exact (fill_of_ne hne).trans (h.mem g (hg.imp_right (List.mem_cons_of_mem f)))

theorem Freeing.freed (h : Freeing s t root ext held (cut own [])) : Freed s t ext held := by
  have hnone : ∀ p, cut own [] p = none := fun p => if_pos List.nil_prefix
  refine ⟨h.kend, h.exact.restrict Sum.inr Sum.inr_injective (fun q => Sum.elim_inr .. |>.symm) ?_, h.heap, h.mem⟩
  rintro (p | q) f hf
  · rw [Sum.elim_inl, hnone] at hf
    cases hf
  · exact ⟨q, rfl⟩

theorem freewalk_frees [DecidableEq P] (h : Tree s root ext held) (hs : Bare s root) :
    Runs R (freewalk 3 root) s fun _ t => Freed s t ext held := by
  have hstart : Freeing s s root ext held (tables s.mem root) :=
    ⟨rfl, fun _ _ hf => hf, h.exact, ⟨h.nodup, hs.sound.free⟩, fun _ _ _ _ _ => rfl, fun _ _ => rfl⟩
  exact (freewalk_spec (p := []) hs 3 rfl hstart (fun _ _ => rfl) node_nil).mono fun _ t ht => ht.freed

/-- The address whose indices are `a`, `b` and `i`. -/
theorem exists_px {a b : Fin 512} (ha : a.val < 256) :
    ∃ v < 2 ^ 26, path (vaOf v) = [a, b] ∧ px 0 (vaOf v) = i := by
  have hv : a.val * 2 ^ 18 + b.val * 2 ^ 9 + i.val < 2 ^ 26 := by omega
  have hval := toNat_vaOf (Nat.le_of_lt hv)
  refine ⟨_, hv, ?_, ?_⟩
  · have h2 : px 2 (vaOf (a.val * 2 ^ 18 + b.val * 2 ^ 9 + i.val)) = a := by
      apply Fin.ext
      rw [px_val, hval]
      omega
    have h1 : px 1 (vaOf (a.val * 2 ^ 18 + b.val * 2 ^ 9 + i.val)) = b := by
      apply Fin.ext
      rw [px_val, hval]
      omega
    rw [path, h2, h1]
  · apply Fin.ext
    rw [px_val, hval]
    omega

theorem bare_of_leaf (hs : Sound s root) (hlow : Low s.mem root)
    (hleaf : ∀ v < 2 ^ 26, leaf s.mem root (vaOf v) = none) : Bare s root := by
  refine ⟨hs, fun p f i hp hf => ?_⟩
  obtain ⟨a, b, rfl⟩ := List.length_eq_two.mp hp
  obtain ⟨v, hv, hpath, hpx⟩ := exists_px (i := i) (b := b) (hlow a [b] f hf)
  have hnone := hleaf v hv
  rwa [leaf_of_tables (hpath ▸ hf), hpx] at hnone

end

end Xv6.Vm
