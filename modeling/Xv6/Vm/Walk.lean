import Xv6.Lib.Alloc
import Xv6.Lib.Radix
import Xv6.Vm.Table

/-!
# Page-table pages and their entries

* `tables m root` : the page-table pages, by the path that leads to them; `leaf m root va` : the valid entry of `va`;
* `Tree s root ext held` : the page-table pages of `root`, the pages `ext` of others and the pages `held` by a running
  function are, with the free pages, all pages, each in one place;
* `Keeps s t root ext held` : the page-table pages are still there, and what others own has not changed;
* `walk_spec`, `mappages_spec`, `unmapPage_keep` : what the functions do to the mappings.
-/

namespace Xv6.Vm
open Radix Alloc Hoare Function

/-- An entry that is valid. -/
def valid (pte : BitVec 64) : Option (BitVec 64) := if pte &&& pteV ≠ 0 then some pte else none

/-- The page-table page that entry `i` of `f` points to. -/
def child (m : Mem) (f : Frame) (i : Fin 512) : Option Frame := (valid (m.pte f i)).map pteFrame

/-- The page-table pages, by the indices that lead to them. -/
def tables (m : Mem) (root : Frame) : List (Fin 512) → Option Frame := node (child m) 2 root

def path (va : BitVec 64) : List (Fin 512) := [px 2 va, px 1 va]

/-- The valid entry of `va`. -/
def leaf (m : Mem) (root : Frame) (va : BitVec 64) : Option (BitVec 64) :=
  (tables m root (path va)).bind fun f => valid (m.pte f (px 0 va))

/-- The entry of `va`, valid or not. -/
def entry (m : Mem) (root : Frame) (va : BitVec 64) : Option (BitVec 64) :=
  (tables m root (path va)).map fun f => m.pte f (px 0 va)

section
variable {P : Type} {s t u : Phys} {root : Frame} {ext : P → Option Frame} {held : List Frame}
  {f g r : Frame} {i j : Fin 512} {p q : List (Fin 512)} {va va' perm w : BitVec 64} {m m' : Mem} {R : VmPanic → Prop}

/-! ## Page-table pages and their owners -/

/-- Not free. -/
def Phys.Used (s : Phys) (f : Frame) : Prop := f ∉ s.freelist

structure Tree (s : Phys) (root : Frame) (ext : P → Option Frame) (held : List Frame) : Prop where
  exact : Exact s.Used (Sum.elim (tables s.mem root) ext) held
  nodup : s.freelist.Nodup

/-- The page-table pages are those of addresses below `MAXVA`. -/
def Low (m : Mem) (root : Frame) : Prop := ∀ i p f, tables m root (i :: p) = some f → i.val < 256

structure Keeps (s t : Phys) (root : Frame) (ext : P → Option Frame) (held : List Frame) : Prop where
  kend : t.kend = s.kend
  table : ∀ p f, tables s.mem root p = some f → tables t.mem root p = some f
  mem : ∀ f, (∃ q, ext q = some f) ∨ f ∈ held → t.mem f = s.mem f
  low : Low s.mem root → Low t.mem root

theorem Keeps.refl (s : Phys) (root : Frame) (ext : P → Option Frame) (held : List Frame) : Keeps s s root ext held :=
  ⟨rfl, fun _ _ h => h, fun _ _ => rfl, id⟩

theorem Keeps.trans (h : Keeps s t root ext held) (h' : Keeps t u root ext held) : Keeps s u root ext held :=
  ⟨h'.kend.trans h.kend, fun p f hp => h'.table p f (h.table p f hp), fun f hf => (h'.mem f hf).trans (h.mem f hf),
    fun hl => h'.low (h.low hl)⟩

namespace Tree

section
variable (h : Tree s root ext held)
include h

theorem once (hp : tables s.mem root p = some f) (hq : tables s.mem root q = some f) : p = q := by
  have hpq : (Sum.inl p : List (Fin 512) ⊕ P) = Sum.inl q := h.exact.once hp hq
  exact Sum.inl.inj hpq

theorem not_free (hp : tables s.mem root p = some f) : f ∉ s.freelist := by
  have hused : s.Used f := h.exact.used_of_own (p := Sum.inl p) hp
  exact hused

theorem ne_ext (hp : tables s.mem root p = some f) {q : P} (hq : ext q = some g) : g ≠ f := by
  rintro rfl
  have hpq : (Sum.inl p : List (Fin 512) ⊕ P) = Sum.inr q := h.exact.once hp hq
  cases hpq

theorem ne_held (hp : tables s.mem root p = some f) (hg : g ∈ held) : g ≠ f := by
  rintro rfl
  exact h.exact.not_held (p := Sum.inl p) hp hg

/-- What belongs to others is no page-table page. -/
theorem ne_other (hp : tables s.mem root p = some f) (hg : (∃ q, ext q = some g) ∨ g ∈ held) : g ≠ f := by
  rcases hg with ⟨q, hq⟩ | hg
  · exact h.ne_ext hp hq
  · exact h.ne_held hp hg

theorem not_free_other (hg : (∃ q, ext q = some g) ∨ g ∈ held) : g ∉ s.freelist := by
  rcases hg with ⟨q, hq⟩ | hg
  · have hused : s.Used g := h.exact.used_of_own (p := Sum.inr q) hq
    exact hused
  · have hused : s.Used g := h.exact.used_of_held hg
    exact hused

end

end Tree

/-- Free pages and page-table pages come from the pool, and entries above the lowest level are not leaves. -/
structure Sound (s : Phys) (root : Frame) : Prop where
  free : ∀ f ∈ s.freelist, s.InPool f
  table : ∀ p f, tables s.mem root p = some f → s.InPool f
  plain : ∀ p f i w, p.length < 2 → tables s.mem root p = some f → valid (s.mem.pte f i) = some w →
    w &&& (pteR ||| pteW ||| pteX) = 0

/-- What a change of the page table keeps. -/
structure Edits (s t : Phys) (root : Frame) (ext : P → Option Frame) (held : List Frame) : Prop where
  tree : Tree t root ext held
  keeps : Keeps s t root ext held
  sound : Sound s root → Sound t root

theorem Edits.refl (h : Tree s root ext held) : Edits s s root ext held := ⟨h, .refl .., id⟩

theorem Edits.trans (h : Edits s t root ext held) (h' : Edits t u root ext held) : Edits s u root ext held :=
  ⟨h'.tree, h.keeps.trans h'.keeps, fun hs => h'.sound (h.sound hs)⟩

/-- What `walk()` leaves alone. -/
structure Walked (s t : Phys) (root : Frame) (ext : P → Option Frame) (held : List Frame) : Prop
    extends Edits s t root ext held where
  leaf : ∀ va, leaf t.mem root va = leaf s.mem root va
  entry : ∀ va w, entry s.mem root va = some w → entry t.mem root va = some w

theorem Walked.refl (h : Tree s root ext held) : Walked s s root ext held := ⟨.refl h, fun _ => rfl, fun _ _ hw => hw⟩

theorem Walked.trans (h : Walked s t root ext held) (h' : Walked t u root ext held) : Walked s u root ext held :=
  ⟨h.toEdits.trans h'.toEdits, fun va => (h'.leaf va).trans (h.leaf va), fun va w hw => h'.entry va w (h.entry va w hw)⟩

theorem child_congr (h : m' f = m f) (i : Fin 512) : child m' f i = child m f i := by
  rw [child, child, pte_congr h]

/-- Mappings are in the page-table pages. -/
theorem tables_congr (h : ∀ p f, tables m root p = some f → m' f = m f) (p : List (Fin 512)) :
    tables m' root p = tables m root p :=
  node_congr (fun p b _ hb i => child_congr (h p b hb) i) p

theorem leaf_congr (h : ∀ p f, tables m root p = some f → m' f = m f) (va : BitVec 64) :
    leaf m' root va = leaf m root va := by
  rw [leaf, leaf, tables_congr h]
  cases hf : tables m root (path va) with
  | none => rw [Option.bind_none, Option.bind_none]
  | some f => rw [Option.bind_some, Option.bind_some, pte_congr (h _ f hf)]

/-! ## New page-table pages -/

theorem valid_or (pte : BitVec 64) : valid (pte ||| pteV) = some (pte ||| pteV) := by
  refine if_pos fun hc => ?_
  have hbit := congrArg (fun x : BitVec 64 => x.getLsbD 0) hc
  simp [pteV] at hbit

theorem valid_zero : valid 0 = none := if_neg (by decide)

/-- The memory after `walk()` has put the new page `r` below entry `i` of `f`. -/
def Mem.link (m : Mem) (f : Frame) (i : Fin 512) (r : Frame) : Mem :=
  (m.fill r 0).setPte f i (pa2pte r.addr ||| pteV)

theorem link_of_ne (hf : g ≠ f) (hr : g ≠ r) : m.link f i r g = m g := by
  rw [Mem.link, setPte_of_ne hf, fill_of_ne hr]

theorem child_link_self (hfr : f ≠ r) (j : Fin 512) :
    child (m.link f i r) f j = if j = i then some r else child m f j := by
  by_cases hj : j = i
  · have hframe : pteFrame (pa2pte r.addr ||| pteV) = r := pteFrame_mk (by decide)
    rw [if_pos hj, hj, child, Mem.link, pte_setPte_self, valid_or, Option.map_some, hframe]
  · rw [if_neg hj, child, child, Mem.link, pte_setPte_ne (.inr hj), pte_congr (fill_of_ne hfr)]

theorem child_link_new (hfr : f ≠ r) (j : Fin 512) : child (m.link f i r) r j = none := by
  have hpte : (m.link f i r).pte r j = 0 := by
    rw [Mem.link, pte_setPte_ne (.inl hfr.symm), pte_fill_zero]
  rw [child, hpte, valid_zero]
  rfl

variable [DecidableEq P]

theorem tables_snoc (hf : tables m root p = some f) (hp : p.length < 2) :
    tables m root (p ++ [i]) = child m f i := by
  rw [tables, node_of_le _ _ (length_snoc_le hp), descend_snoc, descend_of_node hf, Option.bind_some]

theorem tables_snoc_none (hp : tables m root p = none) (hlen : p.length < 2) :
    tables m root (p ++ [i]) = none := by
  rw [tables, node_of_le _ _ (Nat.le_of_lt hlen)] at hp
  rw [tables, node_of_le _ _ (length_snoc_le hlen), descend_snoc, hp, Option.bind_none]

theorem used_take {rest : List Frame} (hfree : s.freelist = r :: rest) (hnodup : s.freelist.Nodup) (m : Mem)
    (g : Frame) : Phys.Used { s with mem := m, freelist := rest } g ↔ g = r ∨ s.Used g := by
  rw [hfree, List.nodup_cons] at hnodup
  show g ∉ rest ↔ g = r ∨ g ∉ s.freelist
  rw [hfree, List.mem_cons]
  have hne : g ∈ rest → g ≠ r := fun hg he => hnodup.1 (he ▸ hg)
  tauto

/-- The page-table page that `walk()` has made. -/
def Phys.linked (s : Phys) (f : Frame) (i : Fin 512) (r : Frame) (rest : List Frame) : Phys :=
  { s with mem := s.mem.link f i r, freelist := rest }

theorem Sound.link {rest : List Frame} (hs : Sound s root) (hfree : s.freelist = r :: rest)
    (hnew : ∀ {q g}, tables s.mem root q = some g → g ≠ r) (hf : tables s.mem root p = some f)
    (htab : tables (s.mem.link f i r) root = update (tables s.mem root) (p ++ [i]) (some r)) :
    Sound (s.linked f i r rest) root where
  free g hg := hs.free g (hfree ▸ List.mem_cons_of_mem r hg)
  table q g hg := by
    have hg' : update (tables s.mem root) (p ++ [i]) (some r) q = some g := htab ▸ hg
    by_cases hq : q = p ++ [i]
    · rw [hq, update_self] at hg'
      obtain rfl := Option.some.inj hg'
      exact hs.free r (hfree ▸ List.mem_cons_self)
    · rw [update_of_ne hq] at hg'
      exact hs.table q g hg'
  plain q g j w hlen hg hw := by
    have hg' : update (tables s.mem root) (p ++ [i]) (some r) q = some g := htab ▸ hg
    have hw' : valid ((s.mem.link f i r).pte g j) = some w := hw
    by_cases hq : q = p ++ [i]
    · rw [hq, update_self] at hg'
      obtain rfl := Option.some.inj hg'
      rw [Mem.link, pte_setPte_ne (.inl (hnew hf).symm), pte_fill_zero, valid_zero] at hw'
      cases hw'
    · rw [update_of_ne hq] at hg'
      by_cases hgj : g = f ∧ j = i
      · rw [hgj.1, hgj.2, Mem.link, pte_setPte_self, valid_or] at hw'
        rw [← Option.some.inj hw', pa2pte_or_and (by decide)]
        decide
      · rw [Mem.link, pte_setPte_ne (by tauto), pte_congr (fill_of_ne (hnew hg'))] at hw'
        exact hs.plain q g j w hlen hg' hw'

/-- A free page becomes a page-table page. -/
theorem Tree.link {rest : List Frame} (h : Tree s root ext held) (hfree : s.freelist = r :: rest)
    (hf : tables s.mem root p = some f) (hp : p.length < 2) (hi : p = [] → i.val < 256)
    (hempty : child s.mem f i = none) :
    tables (s.mem.link f i r) root = update (tables s.mem root) (p ++ [i]) (some r) ∧
      Walked s (s.linked f i r rest) root ext held := by
  have hmem : r ∈ s.freelist := by
    rw [hfree]
    exact List.mem_cons_self
  have hnew : ∀ {q g}, tables s.mem root q = some g → g ≠ r := fun hq hc => h.not_free hq (hc ▸ hmem)
  have hnone : tables s.mem root (p ++ [i]) = none := by rw [tables_snoc hf hp, hempty]
  have htab : tables (s.mem.link f i r) root = update (tables s.mem root) (p ++ [i]) (some r) := by
    funext q
    refine node_attach h.once hf hp hempty (child_link_self (hnew hf)) (child_link_new (hnew hf)) ?_ q
    intro q e _ he hef j
    exact child_congr (link_of_ne hef (hnew he)) j
  have hnodup := h.nodup
  rw [hfree, List.nodup_cons] at hnodup
  have hexact : Exact (s.linked f i r rest).Used (Sum.elim (tables (s.mem.link f i r) root) ext) held := by
    have halloc : Exact (s.linked f i r rest).Used
        (Sum.elim (tables s.mem root) ext) (r :: held) := by
      exact h.exact.alloc (fun hc => hc hmem) (used_take hfree h.nodup _)
    rw [htab, ← Sum.update_elim_inl]
    exact halloc.attach (p := Sum.inl (p ++ [i])) hnone
  have hkeep : ∀ q g, tables s.mem root q = some g → tables (s.mem.link f i r) root q = some g := by
    intro q g hq
    rw [htab, update_of_ne, hq]
    rintro rfl
    rw [hnone] at hq
    cases hq
  have hlow : ∀ {va g}, tables s.mem root (path va) = some g → s.mem.link f i r g = s.mem g := by
    intro va g hg
    refine link_of_ne ?_ (hnew hg)
    rintro rfl
    rw [← h.once hg hf] at hp
    exact absurd hp (Nat.lt_irrefl 2)
  have hbelow : Low s.mem root → Low (s.mem.link f i r) root := by
    intro hl j q g hg
    rw [htab] at hg
    by_cases hq : j :: q = p ++ [i]
    · cases p with
      | nil =>
        obtain ⟨rfl, -⟩ := List.cons.inj hq
        exact hi rfl
      | cons k p =>
        obtain ⟨rfl, -⟩ := List.cons.inj hq
        exact hl j p f hf
    · rw [update_of_ne hq] at hg
      exact hl j q g hg
  refine ⟨htab, ⟨⟨hexact, hnodup.2⟩, ⟨rfl, hkeep, fun g hg => ?_, hbelow⟩, fun hs => hs.link hfree hnew hf htab⟩,
    fun va => ?_, fun va w hw => ?_⟩
  · exact link_of_ne (h.ne_other hf hg) fun hc => h.not_free_other hg (hc ▸ hmem)
  · show leaf (s.mem.link f i r) root va = _
    rw [leaf, leaf, htab]
    by_cases hpath : path va = p ++ [i]
    · -- the new page maps nothing yet
      have hpte : (s.mem.link f i r).pte r (px 0 va) = 0 := by
        rw [Mem.link, pte_setPte_ne (.inl (hnew hf).symm), pte_fill_zero]
      rw [hpath, update_self, hnone, Option.bind_some, Option.bind_none, hpte, valid_zero]
    · rw [update_of_ne hpath]
      cases hg : tables s.mem root (path va) with
      | none => rw [Option.bind_none, Option.bind_none]
      | some g => rw [Option.bind_some, Option.bind_some, pte_congr (hlow hg)]
  · obtain ⟨g, hg, rfl⟩ := Option.map_eq_some_iff.mp hw
    show entry (s.mem.link f i r) root va = _
    rw [entry, hkeep _ g hg, Option.map_some, pte_congr (hlow hg)]

/-! ## `walk()` -/

section Rules
variable {R : VmPanic → Prop} {A : Type} {Q : A → Phys → Prop} {k : Unit → VmM A}

theorem getPte_bind {at' : Frame × Fin 512} {k : BitVec 64 → VmM A} (h : Runs R (k (s.mem.pte at'.1 at'.2)) s Q) :
    Runs R (getPte at' >>= k) s Q := by
  have hget : Runs R (getPte at') s fun a t => a = s.mem.pte at'.1 at'.2 ∧ t = s := Runs.get_bind (.pure ⟨rfl, rfl⟩)
  refine hget.seq fun a t ht => ?_
  rw [ht.1, ht.2]
  exact h

theorem panicIf_bind {c : Prop} [Decidable c] {e : VmPanic} (hc : c → R e) (h : ¬ c → Runs R (k ()) s Q) :
    Runs R (panicIf c e >>= k) s Q := by
  rw [panicIf]
  by_cases hd : c
  · rw [if_pos hd]
    exact .throw_bind (hc hd)
  · rw [if_neg hd]
    exact .pure_bind (h hd)

/-- `kalloc()` takes the first free page, and fills it. -/
theorem kalloc_spec :
    Runs R kalloc s fun a t => (a = none ∧ s.freelist = [] ∧ t = s) ∨
      ∃ r rest, a = some r ∧ s.freelist = r :: rest ∧ t = { s with mem := s.mem.fill r 5, freelist := rest } := by
  refine .get_bind ?_
  cases hfree : s.freelist with
  | nil => exact .pure (.inl ⟨rfl, rfl, rfl⟩)
  | cons r rest => exact .modify_bind (.pure (.inr ⟨r, rest, rfl, rfl, rfl⟩))

theorem kalloc_bind {k : Option Frame → VmM A} (hnil : s.freelist = [] → Runs R (k none) s Q)
    (hcons : ∀ r rest, s.freelist = r :: rest →
      Runs R (k (some r)) { s with mem := s.mem.fill r 5, freelist := rest } Q) : Runs R (kalloc >>= k) s Q := by
  refine kalloc_spec.seq fun a t ht => ?_
  rcases ht with ⟨rfl, hfree, rfl⟩ | ⟨r, rest, rfl, hfree, rfl⟩
  · exact hnil hfree
  · exact hcons r rest hfree

theorem setPte_bind {at' : Frame × Fin 512} (h : Runs R (k ()) { s with mem := s.mem.setPte at'.1 at'.2 w } Q) :
    Runs R (setPte at' w >>= k) s Q :=
  Runs.modify_bind h

theorem kfree_spec (hpool : s.InPool f) :
    Runs R (kfree f) s fun _ t => t = { s with mem := s.mem.fill f 1, freelist := f :: s.freelist } := by
  unfold kfree
  exact .get_bind (panicIf_bind (fun hc => absurd hpool hc) fun _ => .of_modify rfl)

theorem kfree_bind (hpool : s.InPool f)
    (h : Runs R (k ()) { s with mem := s.mem.fill f 1, freelist := f :: s.freelist } Q) :
    Runs R (kfree f >>= k) s Q := by
  refine (kfree_spec hpool).seq fun _ t ht => ?_
  rw [ht]
  exact h

theorem kfree_panic_bind (hpool : ¬ s.InPool f) (h : R .kfree) : Runs R (kfree f >>= k) s Q := by
  have hpanic : Runs R (kfree f) s fun _ _ => False := by
    unfold kfree
    exact .get_bind (panicIf_bind (fun _ => h) fun hc => absurd hpool hc)
  exact hpanic.seq fun _ _ hc => hc.elim

theorem memset_bind {c : UInt8} (h : Runs R (k ()) { s with mem := s.mem.fill f c } Q) :
    Runs R (memset f c >>= k) s Q :=
  Runs.modify_bind h

end Rules

theorem valid_eq_none_iff (pte : BitVec 64) : valid pte = none ↔ pte &&& pteV = 0 := by
  rw [valid]
  by_cases hv : pte &&& pteV = 0
  · simp [hv]
  · simp

theorem valid_of_ne {pte : BitVec 64} (h : pte &&& pteV ≠ 0) : valid pte = some pte := if_pos h

theorem valid_eq_some {pte : BitVec 64} (h : valid pte = some w) : pte = w ∧ w &&& pteV ≠ 0 := by
  rw [valid] at h
  split at h
  · cases h
    exact ⟨rfl, ‹_›⟩
  · cases h

omit [DecidableEq P] in
theorem valid_of_leaf (h : leaf m root va = some w) : w &&& pteV ≠ 0 := by
  obtain ⟨f, -, hf⟩ := Option.bind_eq_some_iff.mp h
  exact (valid_eq_some hf).2

theorem fill_fill {c d : UInt8} : (m.fill f c).fill f d = m.fill f d := update_idem ..

theorem walkDown_alloc :
    Runs R (walkDown f i true) s fun a t => (a = child s.mem f i ∧ t = s ∧ (a = none → s.freelist = [])) ∨
      ∃ r rest, child s.mem f i = none ∧ s.freelist = r :: rest ∧ a = some r ∧ t = s.linked f i r rest := by
  unfold walkDown
  refine getPte_bind ?_
  by_cases hv : s.mem.pte f i &&& pteV ≠ 0
  · rw [if_pos hv, child, valid_of_ne hv]
    exact .pure (.inl ⟨rfl, rfl, fun hc => absurd hc (Option.some_ne_none _)⟩)
  · have hchild : child s.mem f i = none := by
      rw [child, (valid_eq_none_iff _).mpr (not_not.mp hv)]
      rfl
    rw [if_neg hv, if_neg (by decide), hchild]
    refine kalloc_bind (fun hnil => ?_) fun r rest hfree => ?_
    · exact .pure (.inl ⟨rfl, rfl, fun _ => hnil⟩)
    · refine memset_bind (setPte_bind (.pure (.inr ⟨r, rest, rfl, hfree, rfl, ?_⟩)))
      dsimp only
      rw [fill_fill]
      rfl

theorem walkDown_find : Runs R (walkDown f i false) s fun a t => t = s ∧ a = child s.mem f i := by
  unfold walkDown
  refine getPte_bind ?_
  by_cases hv : s.mem.pte f i &&& pteV ≠ 0
  · rw [if_pos hv, child, valid_of_ne hv]
    exact .pure ⟨rfl, rfl⟩
  · rw [if_neg hv, if_pos rfl, child, (valid_eq_none_iff _).mpr (not_not.mp hv)]
    exact .pure ⟨rfl, rfl⟩

/-- How many page-table pages are missing for `va`. -/
def missing (m : Mem) (root : Frame) (va : BitVec 64) : Nat :=
  if tables m root [px 2 va] = none then 2 else if tables m root (path va) = none then 1 else 0

theorem missing_of_none (h : tables s.mem root [px 2 va] = none) : missing s.mem root va = 2 := if_pos h

theorem missing_of_some (h : tables s.mem root [px 2 va] = some f) :
    missing s.mem root va = if child s.mem f (px 1 va) = none then 1 else 0 := by
  have hpath : tables s.mem root (path va) = child s.mem f (px 1 va) :=
  tables_snoc (p := [px 2 va]) h (Nat.lt_succ_self 1)
  rw [missing, if_neg (by rw [h]; exact Option.some_ne_none f), hpath]

theorem walk_eq (root : Frame) (va : BitVec 64) (alloc : Bool) :
    walk root va alloc = panicIf (maxva ≤ va) .walk >>= fun _ => walkDown root (px 2 va) alloc >>= fun a =>
      a.elim (pure none) fun f => walkDown f (px 1 va) alloc >>= fun a =>
        a.elim (pure none) fun f => pure (some (f, px 0 va)) := by
  unfold walk
  congr 1
  funext _
  rw [walkLoop]
  congr 1
  funext a
  cases a with
  | none => rfl
  | some f =>
    dsimp only [Option.elim_some]
    rw [walkLoop]
    congr 1
    funext a
    cases a with
    | none => rfl
    | some f =>
      dsimp only [Option.elim_some]
      rw [walkLoop]

theorem px_two_lt (hva : va < maxva) : (px 2 va).val < 256 := by
  have h : va.toNat < 2 ^ 38 := hva
  rw [px_val]
  omega

theorem walk_spec (h : Tree s root ext held) (hva : va < maxva) :
    Runs R (walk root va true) s fun a t => Walked s t root ext held ∧
      (a = none → s.freelist.length < missing s.mem root va ∧ t.freelist = [] ∧ tables t.mem root (path va) = none) ∧
      ∀ at', a = some at' → at'.2 = px 0 va ∧ tables t.mem root (path va) = some at'.1 ∧
        t.freelist = s.freelist.drop (missing s.mem root va) := by
  have hroot : ∀ m : Mem, tables m root [] = some root := fun m => node_nil
  have htop : ∀ m : Mem, tables m root [px 2 va] = child m root (px 2 va) := fun m =>
    tables_snoc (p := []) (hroot m) (by decide)
  have hlow : ∀ {m : Mem} {f}, tables m root [px 2 va] = some f → tables m root (path va) = child m f (px 1 va) :=
    fun hf => tables_snoc (p := [px 2 va]) hf (Nat.lt_succ_self 1)
  rw [walk_eq]
  refine panicIf_bind (fun hc => absurd hva (BitVec.not_lt.mpr hc)) fun _ => ?_
  -- the page of the middle level
  have hfirst : Runs R (walkDown root (px 2 va) true) s fun a t => Walked s t root ext held ∧
      a = tables t.mem root [px 2 va] ∧ (a = none → s.freelist.length < missing s.mem root va ∧ t.freelist = []) ∧
      (a ≠ none → s.freelist.drop (missing s.mem root va) = t.freelist.drop (missing t.mem root va) ∧
        (t.freelist.length < missing t.mem root va → s.freelist.length < missing s.mem root va)) := by
    refine walkDown_alloc.mono fun a t ht => ?_
    rcases ht with ⟨rfl, rfl, hnone⟩ | ⟨r, rest, hchild, hfree, rfl, rfl⟩
    · refine ⟨.refl h, (htop _).symm, fun hc => ?_, fun _ => ⟨rfl, id⟩⟩
      rw [hnone hc, missing_of_none ((htop _).trans hc)]
      exact ⟨by decide, rfl⟩
    · obtain ⟨htab, hwalked⟩ := h.link hfree (hroot _) (by decide) (fun _ => px_two_lt hva) hchild
      have hnew : tables (s.linked root (px 2 va) r rest).mem root [px 2 va] = some r := by
        show tables (s.mem.link root (px 2 va) r) root ([] ++ [px 2 va]) = some r
        rw [htab, update_self]
      have hmiss : missing (s.linked root (px 2 va) r rest).mem root va = 1 := by
        have hne : root ≠ r := by
          rintro rfl
          exact h.not_free (hroot _) (hfree ▸ List.mem_cons_self)
        have hchild' : child (s.linked root (px 2 va) r rest).mem r (px 1 va) = none := child_link_new hne _
        rw [missing_of_some hnew, if_pos hchild']
      refine ⟨hwalked, hnew.symm, fun hc => absurd hc (Option.some_ne_none _), fun _ => ?_⟩
      rw [missing_of_none ((htop _).trans hchild), hmiss, hfree]
      refine ⟨rfl, fun hlt => ?_⟩
      have hrest : rest.length < 1 := hlt
      rw [List.length_cons]
      omega
  refine hfirst.seq fun a t ⟨hw, ha, hnone, hcount⟩ => ?_
  cases a with
  | none =>
    rw [Option.elim_none]
    refine .pure ⟨hw, fun _ => ⟨(hnone rfl).1, (hnone rfl).2, ?_⟩, fun at' hc => absurd hc.symm (Option.some_ne_none _)⟩
    exact tables_snoc_none (p := [px 2 va]) ha.symm (Nat.lt_succ_self 1)
  | some f =>
    obtain ⟨hdrop, hshort⟩ := hcount (Option.some_ne_none f)
    rw [Option.elim_some]
    refine walkDown_alloc.seq fun a u hu => ?_
    rcases hu with ⟨rfl, rfl, hnone'⟩ | ⟨r, rest, hchild, hfree, rfl, rfl⟩
    · cases hchild : child u.mem f (px 1 va) with
      | none =>
        refine .pure ⟨hw, fun _ => ⟨hshort ?_, hnone' hchild, (hlow ha.symm).trans hchild⟩, fun at' hc =>
          absurd hc.symm (Option.some_ne_none _)⟩
        rw [hnone' hchild, missing_of_some ha.symm, if_pos hchild]
        decide
      | some g =>
        refine .pure ⟨hw, fun hc => absurd hc (Option.some_ne_none _), fun at' hat => ?_⟩
        obtain rfl := Option.some.inj hat
        refine ⟨rfl, (hlow ha.symm).trans hchild, ?_⟩
        rw [hdrop, missing_of_some ha.symm, if_neg (by rw [hchild]; exact Option.some_ne_none g)]
        rfl
    · obtain ⟨htab, hwalked⟩ :=
        hw.tree.link hfree ha.symm (Nat.lt_succ_self 1) (fun hc => absurd hc (List.cons_ne_nil _ _)) hchild
      refine .pure ⟨hw.trans hwalked, fun hc => absurd hc (Option.some_ne_none _), fun at' hat => ?_⟩
      obtain rfl := Option.some.inj hat
      refine ⟨rfl, ?_, ?_⟩
      · show tables (t.mem.link f (px 1 va) r) root ([px 2 va] ++ [px 1 va]) = some r
        rw [htab, update_self]
      · rw [hdrop, missing_of_some ha.symm, if_pos hchild, hfree]
        rfl

theorem walk_find (hva : va < maxva) :
    Runs R (walk root va false) s fun a t => t = s ∧ a = (tables s.mem root (path va)).map fun f => (f, px 0 va) := by
  have hroot : tables s.mem root [] = some root := node_nil
  have htop : tables s.mem root [px 2 va] = child s.mem root (px 2 va) := tables_snoc (p := []) hroot (by decide)
  rw [walk_eq]
  refine panicIf_bind (fun hc => absurd hva (BitVec.not_lt.mpr hc)) fun _ => ?_
  refine walkDown_find.seq fun a t ⟨ht, ha⟩ => ?_
  subst ht ha
  rw [← htop]
  cases hf : tables t.mem root [px 2 va] with
  | none =>
    have hpath : tables t.mem root (path va) = none := tables_snoc_none (p := [px 2 va]) hf (Nat.lt_succ_self 1)
    rw [Option.elim_none, hpath]
    exact .pure ⟨rfl, rfl⟩
  | some f =>
    have hpath : tables t.mem root (path va) = child t.mem f (px 1 va) :=
      tables_snoc (p := [px 2 va]) hf (Nat.lt_succ_self 1)
    rw [Option.elim_some]
    refine walkDown_find.seq fun a u ⟨hu, ha⟩ => ?_
    subst hu ha
    rw [hpath]
    cases child u.mem f (px 1 va) with
    | none => exact .pure ⟨rfl, rfl⟩
    | some g => exact .pure ⟨rfl, rfl⟩

theorem lookup_bind {A : Type} {Q : A → Phys → Prop} {k : Option (Frame × Fin 512) → VmM A} (hva : va < maxva)
    (hnone : tables s.mem root (path va) = none → Runs R (k none) s Q)
    (hsome : ∀ f, tables s.mem root (path va) = some f → Runs R (k (some (f, px 0 va))) s Q) :
    Runs R (walk root va false >>= k) s Q := by
  refine (walk_find hva).seq fun a t ⟨ht, ha⟩ => ?_
  subst ht ha
  cases hf : tables t.mem root (path va) with
  | none => exact hnone hf
  | some f => exact hsome f hf

omit [DecidableEq P] in
theorem walk_panic_bind {A : Type} {Q : A → Phys → Prop} {alloc : Bool} {k : Option (Frame × Fin 512) → VmM A}
    (hva : maxva ≤ va) (h : R .walk) : Runs R (walk root va alloc >>= k) s Q := by
  have hpanic : Runs R (walk root va alloc) s fun _ _ => False := by
    rw [walk_eq]
    exact panicIf_bind (fun _ => h) fun hc => absurd hva hc
  exact hpanic.seq fun _ _ hc => hc.elim

/-! ## Entries -/

/-- The number of the page of `va`. -/
def vpn (va : BitVec 64) : Nat := va.toNat / 4096

theorem eq_of_vpn (h : va.toNat % 4096 = 0) (h' : va'.toNat % 4096 = 0) (hv : vpn va = vpn va') : va = va' := by
  apply BitVec.eq_of_toNat_eq
  rw [vpn, vpn] at hv
  omega

theorem toNat_page {k : Nat} (h : va.toNat + k * 4096 < 2 ^ 64) :
    (va + BitVec.ofNat 64 (k * pgsize)).toNat = va.toNat + k * 4096 := by
  rw [BitVec.toNat_add, BitVec.toNat_ofNat, pgsize, Nat.mod_eq_of_lt (by omega : k * 4096 < 2 ^ 64), Nat.mod_eq_of_lt h]

theorem turns_pages {npages : BitVec 64} (h : va.toNat + npages.toNat * 4096 ≤ 2 ^ 38) :
    turns va (va + npages * 4096#64) = npages.toNat := by
  have hmul : npages * 4096#64 = BitVec.ofNat 64 (npages.toNat * pgsize) := by
    apply BitVec.eq_of_toNat_eq
    rw [BitVec.toNat_mul, BitVec.toNat_ofNat]
    rfl
  rw [hmul, turns, toNat_page (by omega), pgsize]
  omega

theorem toNat_lt_of_lt_maxva (h : va < maxva) : va.toNat < 2 ^ 38 := h

/-- The indices of an address tell its page. -/
theorem px_inj (hva : va < maxva) (hva' : va' < maxva) :
    path va' = path va ∧ px 0 va' = px 0 va ↔ vpn va' = vpn va := by
  have h := toNat_lt_of_lt_maxva hva
  have h' := toNat_lt_of_lt_maxva hva'
  have hval : ∀ level, px level va' = px level va ↔
      va'.toNat / 2 ^ (12 + 9 * level) % 512 = va.toNat / 2 ^ (12 + 9 * level) % 512 := fun level => by
    rw [Fin.ext_iff, px_val, px_val]
  have hpath : path va' = path va ↔ px 2 va' = px 2 va ∧ px 1 va' = px 1 va := by
    rw [path, path, List.cons.injEq, List.cons.injEq]
    simp
  rw [hpath, hval, hval, hval, vpn, vpn]
  omega

/-- No page is two page-table pages. -/
def Distinct (m : Mem) (root : Frame) : Prop := ∀ p q f, tables m root p = some f → tables m root q = some f → p = q

omit [DecidableEq P] in
theorem Tree.distinct (h : Tree s root ext held) : Distinct s.mem root := fun _ _ _ hp hq => h.once hp hq

theorem inner_ne (h : Distinct m root) (hf : tables m root (path va) = some f) (hp : p.length < 2)
    (hg : tables m root p = some g) : g ≠ f := by
  rintro rfl
  rw [h _ _ _ hg hf] at hp
  exact absurd hp (Nat.lt_irrefl 2)

/-- An entry of the lowest level is no page-table page's. -/
theorem tables_setPte (h : Distinct m root) (hf : tables m root (path va) = some f) (w : BitVec 64) :
    tables (m.setPte f (px 0 va) w) root = tables m root := by
  funext q
  exact node_congr (fun p b hp hb i => child_congr (setPte_of_ne (inner_ne h hf hp hb)) i) q

/-- An entry of the lowest level is written: one mapping changes. -/
theorem entry_setPte (h : Distinct m root) (hf : tables m root (path va) = some f) (w : BitVec 64) (hva : va < maxva)
    (hva' : va' < maxva) :
    entry (m.setPte f (px 0 va) w) root va' = if vpn va' = vpn va then some w else entry m root va' := by
  rw [entry, entry, tables_setPte h hf]
  by_cases hv : vpn va' = vpn va
  · obtain ⟨hpath, hpx⟩ := (px_inj hva hva').mpr hv
    rw [if_pos hv, hpath, hpx, hf, Option.map_some, pte_setPte_self]
  · rw [if_neg hv]
    cases hg : tables m root (path va') with
    | none => rw [Option.map_none, Option.map_none]
    | some g =>
      rw [Option.map_some, Option.map_some, pte_setPte_ne]
      by_contra hc
      obtain ⟨rfl, hpx⟩ : g = f ∧ px 0 va' = px 0 va := by
        rw [not_or, not_not, not_not] at hc
        exact hc
      exact hv ((px_inj hva hva').mp ⟨h _ _ _ hg hf, hpx⟩)

theorem leaf_eq_entry : leaf m root va = (entry m root va).bind valid := by
  rw [leaf, entry]
  cases tables m root (path va) with
  | none => rw [Option.bind_none, Option.map_none, Option.bind_none]
  | some f => rw [Option.bind_some, Option.map_some, Option.bind_some]

theorem leaf_setPte (h : Distinct m root) (hf : tables m root (path va) = some f) (w : BitVec 64) (hva : va < maxva)
    (hva' : va' < maxva) :
    leaf (m.setPte f (px 0 va) w) root va' = if vpn va' = vpn va then valid w else leaf m root va' := by
  rw [leaf_eq_entry, entry_setPte h hf w hva hva', leaf_eq_entry]
  by_cases hv : vpn va' = vpn va
  · rw [if_pos hv, if_pos hv, Option.bind_some]
  · rw [if_neg hv, if_neg hv]

omit [DecidableEq P] in
theorem Tree.setLeaf (h : Tree s root ext held) (hf : tables s.mem root (path va) = some f) (w : BitVec 64) :
    Edits s { s with mem := s.mem.setPte f (px 0 va) w } root ext held := by
  have htab := tables_setPte h.distinct hf w
  refine ⟨⟨?_, h.nodup⟩, ⟨rfl, fun p g hg => ?_, fun g hg => setPte_of_ne (h.ne_other hf hg),
  fun hl => ?_⟩, fun hs => ?_⟩
  · have hexact := h.exact
    rw [← htab] at hexact
    exact hexact
  · show tables (s.mem.setPte f (px 0 va) w) root p = some g
    rw [htab, hg]
  · show Low (s.mem.setPte f (px 0 va) w) root
    rwa [Low, htab]
  · refine ⟨hs.free, fun p g hg => hs.table p g (htab ▸ hg), fun p g i x hp hg hx => ?_⟩
    have hg' : tables s.mem root p = some g := htab ▸ hg
    exact hs.plain p g i x hp hg' (pte_congr (setPte_of_ne (inner_ne h.distinct hf hp hg')) ▸ hx)

theorem leaf_of_tables (hf : tables m root (path va) = some f) : leaf m root va = valid (m.pte f (px 0 va)) := by
  rw [leaf, hf, Option.bind_some]

/-- `mappages()` of one page. -/
theorem mappages_spec {pa : Frame} (h : Tree s root ext held) (hva : va < maxva) (haligned : va.toNat % 4096 = 0)
    (hR : leaf s.mem root va ≠ none → R .remap) :
    Runs R (mappages root va 4096#64 pa perm) s fun r t => Edits s t root ext held ∧
      ((r = 0 ∧ leaf s.mem root va = none ∧ t.freelist = s.freelist.drop (missing s.mem root va) ∧
          (∀ va' < maxva, leaf t.mem root va' =
            if vpn va' = vpn va then some (pa2pte pa.addr ||| perm ||| pteV) else leaf s.mem root va') ∧
          entry t.mem root va = some (pa2pte pa.addr ||| perm ||| pteV) ∧
          ∀ va' < maxva, vpn va' ≠ vpn va → ∀ w, entry s.mem root va' = some w → entry t.mem root va' = some w) ∨
        (r = -1 ∧ s.freelist.length < missing s.mem root va ∧ (t.freelist = [] ∧ tables t.mem root (path va) = none) ∧
          (∀ va', leaf t.mem root va' = leaf s.mem root va') ∧
          ∀ va' w, entry s.mem root va' = some w → entry t.mem root va' = some w)) := by
  have hmod : va % 4096#64 = 0 := by
    apply BitVec.eq_of_toNat_eq
    rw [BitVec.toNat_umod]
    exact haligned
  unfold mappages
  refine panicIf_bind (fun hc => absurd hmod hc) fun _ => ?_
  refine panicIf_bind (fun hc => absurd hc (by decide)) fun _ => ?_
  refine panicIf_bind (fun hc => absurd hc (by decide)) fun _ => ?_
  have hone : (4096#64).toNat / pgsize = 0 + 1 := by decide
  rw [hone, mapLoop]
  refine (walk_spec h hva).seq fun a t ⟨hw, hnone, hsome⟩ => ?_
  cases a with
  | none => exact .pure ⟨hw.toEdits, .inr ⟨rfl, (hnone rfl).1, (hnone rfl).2, hw.leaf, hw.entry⟩⟩
  | some at' =>
    obtain ⟨hpx, htab, hdrop⟩ := hsome at' rfl
    have hleaf : leaf s.mem root va = valid (t.mem.pte at'.1 at'.2) := by
      rw [← hw.leaf, leaf_of_tables htab, hpx]
    dsimp only
    refine getPte_bind (panicIf_bind (fun hc => ?_) fun hv => setPte_bind ?_)
    · refine hR ?_
      rw [hleaf, valid_of_ne hc]
      exact Option.some_ne_none _
    · rw [mapLoop, hpx]
      refine .pure ⟨hw.toEdits.trans (hw.tree.setLeaf htab _),
        .inl ⟨rfl, ?_, hdrop, fun va' hva' => ?_, ?_, fun va' hva' hne w hw' => ?_⟩⟩
      · rw [hleaf, (valid_eq_none_iff _).mpr (not_not.mp hv)]
      · rw [leaf_setPte hw.tree.distinct htab _ hva hva', hw.leaf, valid_or]
      · rw [entry_setPte hw.tree.distinct htab _ hva hva, if_pos rfl]
      · rw [entry_setPte hw.tree.distinct htab _ hva hva', if_neg hne, hw.entry va' w hw']

omit [DecidableEq P] in
theorem leaf_eq_of_vpn (hva : va < maxva) (hva' : va' < maxva) (hv : vpn va' = vpn va) :
    leaf m root va' = leaf m root va := by
  obtain ⟨hpath, hpx⟩ := (px_inj hva hva').mpr hv
  rw [leaf, leaf, hpath, hpx]

omit [DecidableEq P] in
theorem leaf_of_unmapped (hva : va < maxva) (hnone : leaf m root va = none) :
    ∀ va' < maxva, leaf m root va' = if vpn va' = vpn va then none else leaf m root va' := by
  intro va' hva'
  by_cases hv : vpn va' = vpn va
  · rw [if_pos hv, leaf_eq_of_vpn hva hva' hv, hnone]
  · rw [if_neg hv]

omit [DecidableEq P] in
/-- `uvmunmap()` of one page that is not to be freed. -/
theorem unmapPage_keep (h : Tree s root ext held) (hva : va < maxva) :
    Runs R (unmapPage root false va) s fun _ t => Edits s t root ext held ∧ t.freelist = s.freelist ∧
      ∀ va' < maxva, leaf t.mem root va' = if vpn va' = vpn va then none else leaf s.mem root va' := by
  unfold unmapPage
  refine lookup_bind hva (fun hnone => ?_) fun f hf => ?_
  · exact .pure ⟨.refl h, rfl, leaf_of_unmapped hva (by rw [leaf, hnone, Option.bind_none])⟩
  · refine getPte_bind ?_
    by_cases hv : s.mem.pte f (px 0 va) &&& pteV = 0
    · rw [if_pos hv]
      exact .pure ⟨.refl h, rfl, leaf_of_unmapped hva (by rw [leaf_of_tables hf, (valid_eq_none_iff _).mpr hv])⟩
    · rw [if_neg hv, if_neg (by decide)]
      refine .of_modify ⟨h.setLeaf hf 0, rfl, fun va' hva' => ?_⟩
      rw [leaf_setPte h.distinct hf 0 hva hva', valid_zero]

end

end Xv6.Vm
