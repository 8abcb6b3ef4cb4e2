import Xv6.Vm.Map

/-!
# User address spaces

* `leafFrames n m root v` : the page that page number `v < n` is mapped to;
* `Space n s root ext held` : page-table pages, user pages, the pages of others and the pages in the hands of the
  running function are all pages that are not free, each in one place;
* `Tree.take`, `Tree.give` : a page is taken from the free list, and given back;
* `Space.map`, `unmapPage_free`, `uvmunmap_free` : user pages are mapped and unmapped.
-/

namespace Xv6.Vm
open Radix Alloc Hoare Function

/-- Free pages are distinct, and come from the pool. -/
structure Heap (s : Phys) : Prop where
  nodup : s.freelist.Nodup
  pool : ∀ f ∈ s.freelist, s.InPool f

section
variable {P : Type} {s t u : Phys} {root : Frame} {ext : P → Option Frame} {held : List Frame}
  {f g r : Frame} {p : List (Fin 512)} {va va' perm w : BitVec 64} {n v : Nat} {x : Nat → UInt8} {m m' : Mem} {q : P}
  {R : VmPanic → Prop} {gone : Nat → Prop}

/-! ## Pages that come and go -/

/-- What does not change when a page that is no page-table page is written. -/
structure Moved (s t : Phys) (root : Frame) (ext : P → Option Frame) (held : List Frame) : Prop where
  keeps : Keeps s t root ext held
  table : tables t.mem root = tables s.mem root
  leaf : ∀ va, leaf t.mem root va = leaf s.mem root va
  sound : Sound s root → Sound t root

/-- A page that is no page-table page is written. -/
theorem moved_of_update {free : List Frame} (hg : ∀ p, tables s.mem root p ≠ some g)
    (hother : ∀ f, (∃ q, ext q = some f) ∨ f ∈ held → f ≠ g)
    (hfree : Sound s root → ∀ f ∈ free, s.InPool f) :
    Moved s { s with mem := update s.mem g x, freelist := free } root ext held := by
  have hmem : ∀ p f, tables s.mem root p = some f → update s.mem g x f = s.mem f := by
    intro p f hf
    refine update_of_ne ?_ ..
    rintro rfl
    exact hg p hf
  have htab : tables (update s.mem g x) root = tables s.mem root := funext fun p => tables_congr hmem p
  refine ⟨⟨rfl, fun p f hf => ?_, fun f hf => update_of_ne (hother f hf) .., fun hl => ?_⟩, htab, leaf_congr hmem,
    fun hs => ?_⟩
  · show tables (update s.mem g x) root p = some f
    rw [htab, hf]
  · show Low (update s.mem g x) root
    rwa [Low, htab]
  · refine ⟨hfree hs, fun p f hf => hs.table p f (htab ▸ hf), fun p f i w hp hf hw => ?_⟩
    have hf' : tables s.mem root p = some f := htab ▸ hf
    exact hs.plain p f i w hp hf' (pte_congr (hmem p f hf') ▸ hw)

/-- The first free page comes into the hands of the running function. -/
theorem Tree.take {rest : List Frame} (h : Tree s root ext held) (hfree : s.freelist = r :: rest) :
    Tree { s with mem := update s.mem r x, freelist := rest } root ext (r :: held) ∧
      Moved s { s with mem := update s.mem r x, freelist := rest } root ext held := by
  have hmem : r ∈ s.freelist := by
    rw [hfree]
    exact List.mem_cons_self
  have hmoved : Moved s { s with mem := update s.mem r x, freelist := rest } root ext held :=
    moved_of_update (fun p hp => h.not_free hp hmem) (fun f hf hc => h.not_free_other hf (hc ▸ hmem))
      fun hs f hf => hs.free f (hfree ▸ List.mem_cons_of_mem r hf)
  refine ⟨⟨?_, ?_⟩, hmoved⟩
  · have halloc := h.exact.alloc (fun hc => hc hmem) (used_take hfree h.nodup (update s.mem r x))
    rw [hmoved.table]
    exact halloc
  · have hnodup := h.nodup
    rw [hfree] at hnodup
    exact (List.nodup_cons.mp hnodup).2

/-- A page in the hands of the running function is freed. -/
theorem Tree.give (h : Tree s root ext (r :: held)) (hpool : s.InPool r) :
    Tree { s with mem := update s.mem r x, freelist := r :: s.freelist } root ext held ∧
      Moved s { s with mem := update s.mem r x, freelist := r :: s.freelist } root ext held := by
  have hne : ∀ f, (∃ q, ext q = some f) ∨ f ∈ held → f ≠ r := by
    rintro f hf rfl
    rcases hf with ⟨q, hq⟩ | hf
    · exact h.exact.not_held (p := Sum.inr q) hq List.mem_cons_self
    · exact (List.nodup_cons.mp h.exact.nodup).1 hf
  have hmoved : Moved s { s with mem := update s.mem r x, freelist := r :: s.freelist } root ext held := by
    refine moved_of_update (fun p hp => h.ne_held hp List.mem_cons_self rfl) hne fun hs f hf => ?_
    rcases List.mem_cons.mp hf with rfl | hf
    · exact hpool
    · exact hs.free f hf
  refine ⟨⟨?_, List.nodup_cons.mpr ⟨h.not_free_other (.inr List.mem_cons_self), h.nodup⟩⟩, hmoved⟩
  rw [hmoved.table]
  refine h.exact.free fun c => ?_
  show c ∉ r :: s.freelist ↔ c ≠ r ∧ c ∉ s.freelist
  rw [List.mem_cons, not_or]

/-! ## User pages -/

/-- The number of pages below `TRAPFRAME`. -/
def userPages : Nat := 2 ^ 26 - 2

def vaOf (v : Nat) : BitVec 64 := BitVec.ofNat 64 (v * 4096)

theorem toNat_vaOf (hv : v ≤ 2 ^ 26) : (vaOf v).toNat = v * 4096 := by
  rw [vaOf, BitVec.toNat_ofNat, Nat.mod_eq_of_lt (by omega)]

theorem vaOf_add {k : Nat} : vaOf v + BitVec.ofNat 64 (k * 4096) = vaOf (v + k) := by
  rw [vaOf, vaOf, ← BitVec.ofNat_add, Nat.add_mul]

theorem vaOf_succ : vaOf v + 4096#64 = vaOf (v + 1) := by rw [← vaOf_add, Nat.one_mul]

theorem vpn_vaOf (hv : v < 2 ^ 26) : vpn (vaOf v) = v := by
  rw [vpn, toNat_vaOf (Nat.le_of_lt hv), Nat.mul_div_cancel _ (by decide)]

theorem vaOf_lt (hv : v < 2 ^ 26) : vaOf v < maxva := by
  show (vaOf v).toNat < 2 ^ 38
  rw [toNat_vaOf (Nat.le_of_lt hv)]
  omega

theorem vpn_lt (hva : va < maxva) : vpn va < 2 ^ 26 := by
  have hlt := toNat_lt_of_lt_maxva hva
  rw [vpn]
  omega

theorem leaf_vaOf (hva : va < maxva) : leaf m root (vaOf (vpn va)) = leaf m root va :=
  leaf_eq_of_vpn hva (vaOf_lt (vpn_lt hva)) (vpn_vaOf (vpn_lt hva))

theorem vaOf_aligned (hv : v ≤ 2 ^ 26) : (vaOf v).toNat % 4096 = 0 := by
  rw [toNat_vaOf hv, Nat.mul_mod_left]

/-- The pages that the first `n` pages of the address space are mapped to. -/
def leafFrames (n : Nat) (m : Mem) (root : Frame) (v : Nat) : Option Frame :=
  if v < n then (leaf m root (vaOf v)).map pteFrame else none

theorem leafFrames_of_lt (hv : v < n) :
    leafFrames n m root v = (leaf m root (vaOf v)).map pteFrame := if_pos hv

theorem lt_of_leafFrames (h : leafFrames n m root v = some f) : v < n := by
  by_contra hv
  rw [leafFrames, if_neg hv] at h
  cases h

theorem leafFrames_eq_some :
    leafFrames n m root v = some f ↔ v < n ∧ ∃ w, leaf m root (vaOf v) = some w ∧ pteFrame w = f := by
  constructor
  · intro h
    have hv := lt_of_leafFrames h
    rw [leafFrames_of_lt hv, Option.map_eq_some_iff] at h
    exact ⟨hv, h⟩
  · rintro ⟨hv, h⟩
    rw [leafFrames_of_lt hv, Option.map_eq_some_iff]
    exact h

theorem leafFrames_congr (h : ∀ va, leaf m' root va = leaf m root va) :
    leafFrames n m' root = leafFrames n m root := by
  funext v
  rw [leafFrames, leafFrames, h]

structure Space (n : Nat) (s : Phys) (root : Frame) (ext : P → Option Frame) (held : List Frame) : Prop where
  tree : Tree s root (Sum.elim (leafFrames n s.mem root) ext) held
  sound : Sound s root
  pool : ∀ v f, leafFrames n s.mem root v = some f → s.InPool f
  bound : n ≤ 2 ^ 26

theorem leafFrames_of_none (h : leaf m root (vaOf v) = none) : leafFrames n m root v = none := by
  rw [leafFrames, h, Option.map_none, ite_self]

theorem Space.not_free (h : Space n s root ext held) (hv : leafFrames n s.mem root v = some f) : f ∉ s.freelist := by
  refine h.tree.not_free_other (.inl ⟨Sum.inl v, ?_⟩)
  rw [Sum.elim_inl, hv]

theorem Space.not_free_ext (h : Space n s root ext held) (hq : ext q = some f) : f ∉ s.freelist := by
  refine h.tree.not_free_other (.inl ⟨Sum.inr q, ?_⟩)
  rw [Sum.elim_inr, hq]

theorem Space.once (h : Space n s root ext held) {v' : Nat} (hv : leafFrames n s.mem root v = some f)
    (hv' : leafFrames n s.mem root v' = some f) : v = v' := by
  have honce := h.tree.exact.once (p := Sum.inr (Sum.inl v)) (q := Sum.inr (Sum.inl v')) (b := f)
    (by rw [Sum.elim_inr, Sum.elim_inl, hv]) (by rw [Sum.elim_inr, Sum.elim_inl, hv'])
  exact Sum.inl.inj (Sum.inr.inj honce)

/-- What a change of a user address space leaves to others. -/
theorem Keeps.outer {lf : Nat → Option Frame} (h : Keeps s t root (Sum.elim lf ext) held) : Keeps s t root ext held :=
  ⟨h.kend, h.table, fun f hf => h.mem f (hf.imp_left fun ⟨q, hq⟩ => ⟨Sum.inr q, hq⟩), h.low⟩

theorem Keeps.tail (h : Keeps s t root ext (r :: held)) : Keeps s t root ext held :=
  ⟨h.kend, h.table, fun f hf => h.mem f (hf.imp_right (List.mem_cons_of_mem r)), h.low⟩

/-- User pages stay as they are. -/
theorem Keeps.leaf (h : Keeps s t root (Sum.elim (leafFrames n s.mem root) ext) held)
    (hv : leafFrames n s.mem root v = some f) : t.mem f = s.mem f := by
  refine h.mem f (.inl ⟨Sum.inl v, ?_⟩)
  rw [Sum.elim_inl, hv]

/-- A user page is no page-table page. -/
theorem Space.ne_table (h : Space n s root ext held) (hv : leafFrames n s.mem root v = some f) (p : List (Fin 512)) :
    tables s.mem root p ≠ some f := by
  intro hp
  refine h.tree.ne_ext hp (q := Sum.inl v) (g := f) ?_ rfl
  rw [Sum.elim_inl, hv]

/-- A user page is no page of others. -/
theorem Space.ne_ext (h : Space n s root ext held) (hv : leafFrames n s.mem root v = some f) (q : P) :
    ext q ≠ some f := by
  intro hq
  have honce := h.tree.exact.once (p := Sum.inr (Sum.inl v)) (q := Sum.inr (Sum.inr q)) (b := f)
    (by rw [Sum.elim_inr, Sum.elim_inl, hv]) (by rw [Sum.elim_inr, Sum.elim_inr, hq])
  cases Sum.inr.inj honce

/-- While no page-table page and no user page goes, no page becomes free. -/
theorem Space.free_mono (hs : Space n s root ext []) (ht : Space n t root ext []) (hk : Keeps s t root ext [])
    (hleaf : ∀ v f, leafFrames n s.mem root v = some f → leafFrames n t.mem root v = some f) (hf : f ∈ t.freelist) :
    f ∈ s.freelist := by
  by_contra hused
  rcases (hs.tree.exact.used_iff f).mp hused with ⟨p | v | q, hp⟩ | hc
  · exact ht.tree.not_free (hk.table p f hp) hf
  · exact ht.not_free (hleaf v f hp) hf
  · exact ht.not_free_ext hp hf
  · exact absurd hc List.not_mem_nil

/-- While no user page comes, only page-table pages are taken. -/
theorem Space.free_back (hs : Space n s root ext []) (ht : Space n t root ext [])
    (hleaf : ∀ v f, leafFrames n t.mem root v = some f → leafFrames n s.mem root v = some f) (hf : f ∈ s.freelist) :
    f ∈ t.freelist ∨ ∃ p, tables t.mem root p = some f := by
  by_contra hc
  rw [not_or] at hc
  rcases (ht.tree.exact.used_iff f).mp hc.1 with ⟨p | v | q, hp⟩ | hmem
  · exact hc.2 ⟨p, hp⟩
  · exact hs.not_free (hleaf v f hp) hf
  · exact hs.not_free_ext hp hf
  · exact absurd hmem List.not_mem_nil

section
variable (h : Space n s root ext held)
include h

/-- A page is taken, written or given back. -/
theorem Space.moved {held' held'' : List Frame} (htree : Tree t root (Sum.elim (leafFrames n s.mem root) ext) held')
    (hm : Moved s t root (Sum.elim (leafFrames n s.mem root) ext) held'') : Space n t root ext held' where
  tree := by
    rw [leafFrames_congr hm.leaf]
    exact htree
  sound := hm.sound h.sound
  pool v f hf := (inPool_congr hm.keeps.kend).mpr (h.pool v f (leafFrames_congr hm.leaf ▸ hf))
  bound := h.bound

/-- The page table has changed, and the user pages are the same. -/
theorem Space.of_edits (he : Edits s t root (Sum.elim (leafFrames n s.mem root) ext) held)
    (hframes : leafFrames n t.mem root = leafFrames n s.mem root) : Space n t root ext held where
  tree := by
    rw [hframes]
    exact he.tree
  sound := he.sound h.sound
  pool v f hf := (inPool_congr he.keeps.kend).mpr (h.pool v f (hframes ▸ hf))
  bound := h.bound

/-- The page table has changed, and no mapping has. -/
theorem Space.edits (he : Edits s t root (Sum.elim (leafFrames n s.mem root) ext) held)
    (hleaf : ∀ va, leaf t.mem root va = leaf s.mem root va) : Space n t root ext held :=
  h.of_edits he (leafFrames_congr hleaf)

/-- A user page is written. -/
theorem Space.write (hv : leafFrames n s.mem root v = some g) :
    Space n { s with mem := update s.mem g x } root ext held ∧
      Moved s { s with mem := update s.mem g x } root ext held := by
  have hmoved : Moved s { s with mem := update s.mem g x } root ext held := by
    refine moved_of_update (h.ne_table hv) (fun f hf => ?_) fun hs => hs.free
    rintro rfl
    rcases hf with ⟨q, hq⟩ | hf
    · exact h.ne_ext hv q hq
    · refine h.tree.exact.not_held (p := Sum.inr (Sum.inl v)) ?_ hf
      rw [Sum.elim_inr, Sum.elim_inl, hv]
  have hframes : leafFrames n (update s.mem g x) root = leafFrames n s.mem root := leafFrames_congr hmoved.leaf
  refine ⟨⟨⟨?_, h.tree.nodup⟩, hmoved.sound h.sound, fun v' f hf => ?_, h.bound⟩, hmoved⟩
  · rw [hmoved.table, hframes]
    exact h.tree.exact
  · exact h.pool v' f (hframes ▸ hf)

/-- The page-table pages are as they were, and nothing else is known of the pages. -/
theorem Space.transport {Q : Type} {ext' : Q → Option Frame} {held' : List Frame} (ht : Heap t)
    (hkend : t.kend = s.kend) (hmem : ∀ p f, tables s.mem root p = some f → t.mem f = s.mem f)
    (hexact : Exact t.Used (Sum.elim (tables s.mem root) (Sum.elim (leafFrames n s.mem root) ext')) held') :
    Space n t root ext' held' := by
  have htab : tables t.mem root = tables s.mem root := funext (tables_congr hmem)
  have hframes : leafFrames n t.mem root = leafFrames n s.mem root := leafFrames_congr (leaf_congr hmem)
  refine ⟨⟨?_, ht.nodup⟩, ⟨ht.pool, fun p f hf => ?_, fun p f i w hp hf hw => ?_⟩, fun v f hf => ?_, h.bound⟩
  · rw [htab, hframes]
    exact hexact
  · exact (inPool_congr hkend).mpr (h.sound.table p f (htab ▸ hf))
  · rw [htab] at hf
    exact h.sound.plain p f i w hp hf (pte_congr (hmem p f hf) ▸ hw)
  · exact (inPool_congr hkend).mpr (h.pool v f (hframes ▸ hf))

/-- A page of others is written. -/
theorem Space.writeOther (hq : ext q = some g) :
    Space n { s with mem := update s.mem g x } root ext held ∧
      (∀ p f, tables s.mem root p = some f → update s.mem g x f = s.mem f) ∧
      ∀ v f, leafFrames n s.mem root v = some f → update s.mem g x f = s.mem f := by
  have hne : ∀ p f, tables s.mem root p = some f → update s.mem g x f = s.mem f := by
    intro p f hf
    refine update_of_ne (fun hc => ?_) ..
    exact h.tree.ne_ext hf (q := Sum.inr q) (g := g) (by rw [Sum.elim_inr, hq]) hc.symm
  refine ⟨h.transport ⟨h.tree.nodup, h.sound.free⟩ rfl hne h.tree.exact, hne, fun v f hf => ?_⟩
  refine update_of_ne (fun hc => ?_) ..
  exact h.ne_ext hf q (hc ▸ hq)

end

variable [DecidableEq P]

theorem Tree.attach (h : Tree s root ext (r :: held)) (hq : ext q = none) :
    Tree s root (update ext q (some r)) held := by
  refine ⟨?_, h.nodup⟩
  rw [← Sum.update_elim_inr]
  exact h.exact.attach (p := Sum.inr q) hq

theorem Tree.detach (h : Tree s root ext held) (hq : ext q = some r) :
    Tree s root (update ext q none) (r :: held) := by
  refine ⟨?_, h.nodup⟩
  rw [← Sum.update_elim_inr]
  exact h.exact.detach (p := Sum.inr q) hq

/-- One mapping of a user page changes. -/
theorem leafFrames_update {e : Option (BitVec 64)} (hn : n ≤ 2 ^ 26) (hv : v < n)
    (h : ∀ va < maxva, leaf m' root va = if vpn va = v then e else leaf m root va) :
    leafFrames n m' root = update (leafFrames n m root) v (e.map pteFrame) := by
  funext v'
  by_cases hv' : v' < n
  · rw [leafFrames_of_lt hv', h _ (vaOf_lt (hv'.trans_le hn)), vpn_vaOf (hv'.trans_le hn)]
    by_cases heq : v' = v
    · rw [if_pos heq, heq, update_self]
    · rw [if_neg heq, update_of_ne heq, leafFrames_of_lt hv']
  · have hne : v' ≠ v := fun hc => hv' (hc ▸ hv)
    rw [update_of_ne hne, leafFrames, leafFrames, if_neg hv', if_neg hv']

/-- `mappages()` maps a page in the hands of the running function as a user page. -/
theorem Space.mapPage (h : Space n s root ext (r :: held)) (hr : s.InPool r) (hv : v < n)
    (hnone : leaf s.mem root (vaOf v) = none) (hperm : perm.toNat < 2 ^ 10) :
    Runs R (mappages root (vaOf v) 4096#64 r perm) s fun a t =>
      Keeps s t root (Sum.elim (leafFrames n s.mem root) ext) (r :: held) ∧
      ((a = 0 ∧ Space n t root ext held ∧ t.freelist = s.freelist.drop (missing s.mem root (vaOf v)) ∧
          ∀ va < maxva, leaf t.mem root va =
            if vpn va = v then some (pa2pte r.addr ||| perm ||| pteV) else leaf s.mem root va) ∨
        (a = -1 ∧ Space n t root ext (r :: held) ∧ s.freelist.length < missing s.mem root (vaOf v) ∧
          (t.freelist = [] ∧ tables t.mem root (path (vaOf v)) = none) ∧ ∀ va, leaf t.mem root va =
            leaf s.mem root va)) := by
  have hlt := hv.trans_le h.bound
  refine (mappages_spec h.tree (vaOf_lt hlt) (vaOf_aligned (Nat.le_of_lt hlt)) fun hc => absurd hnone hc).mono
    fun a t ⟨he, hcase⟩ => ?_
  refine ⟨he.keeps, ?_⟩
  rcases hcase with ⟨rfl, -, hfree, hleaf, -⟩ | ⟨rfl, hshort, hnil, hleaf, -⟩
  · rw [vpn_vaOf hlt] at hleaf
    have hframes : leafFrames n t.mem root = update (leafFrames n s.mem root) v (some r) := by
      rw [leafFrames_update h.bound hv hleaf, Option.map_some, BitVec.or_assoc, pteFrame_mk (perm_or_lt hperm)]
    refine .inl ⟨rfl, ⟨?_, he.sound h.sound, fun v' f hf => ?_, h.bound⟩, hfree, hleaf⟩
    · have hempty : Sum.elim (leafFrames n s.mem root) ext (Sum.inl v) = none := by
        rw [Sum.elim_inl, leafFrames_of_lt hv, hnone, Option.map_none]
      rw [hframes, ← Sum.update_elim_inl]
      exact he.tree.attach hempty
    · rw [inPool_congr he.keeps.kend]
      rw [hframes] at hf
      by_cases heq : v' = v
      · rw [heq, update_self] at hf
        exact Option.some.inj hf ▸ hr
      · rw [update_of_ne heq] at hf
        exact h.pool v' f hf
  · exact .inr ⟨rfl, h.edits he hleaf, hshort, hnil, hleaf⟩

/-! ## New pages -/

/-- Page `v` has been mapped to the page `r`, which holds `x`. -/
structure Extended (n : Nat) (s t : Phys) (root : Frame) (ext : P → Option Frame) (held : List Frame) (v : Nat)
    (r : Frame) (x : Nat → UInt8) (perm : BitVec 64) : Prop where
  space : Space n t root ext held
  keeps : Keeps s t root (Sum.elim (leafFrames n s.mem root) ext) held
  fresh : s.freelist.head? = some r
  content : t.mem r = x
  leaf : ∀ va < maxva, leaf t.mem root va =
    if vpn va = v then some (pa2pte r.addr ||| perm ||| pteV) else leaf s.mem root va
  free : t.freelist = s.freelist.drop (1 + missing s.mem root (vaOf v))

/-- There were not enough free pages to map page `v`. -/
structure Spared (n : Nat) (s t : Phys) (root : Frame) (ext : P → Option Frame) (held : List Frame) (v : Nat) :
    Prop where
  space : Space n t root ext held
  keeps : Keeps s t root (Sum.elim (leafFrames n s.mem root) ext) held
  leaf : ∀ va, leaf t.mem root va = leaf s.mem root va
  short : s.freelist.length < 1 + missing s.mem root (vaOf v)
  still : t.freelist.length < 1 + missing t.mem root (vaOf v)

omit [DecidableEq P] in
theorem Space.spared (h : Space n s root ext held) (hnil : s.freelist = []) : Spared n s s root ext held v := by
  have hshort : s.freelist.length < 1 + missing s.mem root (vaOf v) := by
    rw [hnil, List.length_nil]
    omega
  exact ⟨h, .refl .., fun _ => rfl, hshort, hshort⟩

omit [DecidableEq P] in
theorem missing_congr (h : tables m' root = tables m root) : missing m' root va = missing m root va := by
  rw [missing, missing, h]

omit [DecidableEq P] in
theorem missing_pos (h : tables m root (path va) = none) : 0 < missing m root va := by
  rw [missing, if_pos h]
  split <;> decide

/-- A page that has been taken and filled is mapped, or given back. -/
theorem Space.mapFresh_bind {A : Type} {Q : A → Phys → Prop} {F G : VmM A} {rest : List Frame}
    (h : Space n s root ext held) (hfree : s.freelist = r :: rest) (hv : v < n)
    (hnone : leaf s.mem root (vaOf v) = none) (hperm : perm.toNat < 2 ^ 10)
    (hfail : ∀ t, Spared n s t root ext held v → Runs R F t Q)
    (hsucc : ∀ t, Extended n s t root ext held v r x perm → Runs R G t Q) :
    Runs R (mappages root (vaOf v) 4096#64 r perm >>= fun a => if a ≠ 0 then kfree r >>= fun _ => F else G)
      { s with mem := update s.mem r x, freelist := rest } Q := by
  obtain ⟨htree, hmoved⟩ := h.tree.take (x := x) hfree
  have hspace := h.moved htree hmoved
  have hpool : s.InPool r := h.sound.free r (hfree ▸ List.mem_cons_self)
  have hmiss : missing (update s.mem r x) root (vaOf v) = missing s.mem root (vaOf v) := missing_congr hmoved.table
  have hframes : leafFrames n (update s.mem r x) root = leafFrames n s.mem root := leafFrames_congr hmoved.leaf
  refine (hspace.mapPage hpool hv ((hmoved.leaf _).trans hnone) hperm).seq fun a t ⟨hkeeps, hcase⟩ => ?_
  have hkeeps' : Keeps s t root (Sum.elim (leafFrames n s.mem root) ext) held := by
    refine hmoved.keeps.trans ?_
    rw [← hframes]
    exact hkeeps.tail
  have hcontent : t.mem r = x := by
    rw [hkeeps.mem r (.inr List.mem_cons_self)]
    exact update_self ..
  rcases hcase with ⟨rfl, hspace', hdrop, hleaf⟩ | ⟨rfl, hspace', hshort, ⟨hnil, htab⟩, hleaf⟩
  · rw [if_neg (by decide)]
    refine hsucc t ⟨hspace', hkeeps', by rw [hfree]; rfl, hcontent, fun va hva => ?_, ?_⟩
    · rw [hleaf va hva]
      by_cases heq : vpn va = v
      · rw [if_pos heq, if_pos heq]
      · rw [if_neg heq, if_neg heq]
        exact hmoved.leaf va
    · rw [hdrop, hmiss, hfree, Nat.add_comm, List.drop_succ_cons]
  · rw [if_pos (by decide)]
    have hpool' : t.InPool r := (inPool_congr hkeeps.kend).mpr hpool
    obtain ⟨htree', hmoved'⟩ := hspace'.tree.give (x := fun _ => 1) hpool'
    have hframes' : leafFrames n t.mem root = leafFrames n s.mem root := by
      rw [leafFrames_congr hleaf, hframes]
    refine kfree_bind hpool' (hfail _ ⟨hspace'.moved htree' hmoved', hkeeps'.trans (hframes' ▸ hmoved'.keeps),
      fun va => ?_, ?_, ?_⟩)
    · exact ((hmoved'.leaf va).trans (hleaf va)).trans (hmoved.leaf va)
    · rw [hfree, List.length_cons, ← hmiss]
      have hlt : rest.length < missing (update s.mem r x) root (vaOf v) := hshort
      omega
    · have hmiss' : missing (update t.mem r fun _ => 1) root (vaOf v) = missing t.mem root (vaOf v) :=
        missing_congr hmoved'.table
      have hpos := missing_pos htab
      show (r :: t.freelist).length < 1 + missing (update t.mem r fun _ => 1) root (vaOf v)
      rw [hnil, hmiss', List.length_singleton]
      omega

/-! ## Unmapping -/

/-- What unmapping user pages leaves alone. -/
structure Unmapped (n : Nat) (s t : Phys) (root : Frame) (ext : P → Option Frame) (held : List Frame)
    (gone : Nat → Prop)
    [DecidablePred gone] : Prop where
  space : Space n t root ext held
  keeps : Keeps s t root ext held
  table : tables t.mem root = tables s.mem root
  leaf : ∀ va < maxva, leaf t.mem root va = if gone (vpn va) then none else leaf s.mem root va
  contents : ∀ v f, ¬ gone v → leafFrames n s.mem root v = some f → t.mem f = s.mem f

/-- The user page goes from its place into the hands of the running function, and from there to the free list. -/
theorem Space.drop (h : Space n s root ext held) (hv : v < n) (hf : tables s.mem root (path (vaOf v)) = some f)
    (hg : leafFrames n s.mem root v = some g) :
    Unmapped n s { s with mem := (s.mem.fill g 1).setPte f (px 0 (vaOf v)) 0, freelist :=
      g :: s.freelist } root ext held
      fun v' => v' = v := by
  have hlt := hv.trans_le h.bound
  have hdetach := h.tree.detach (q := Sum.inl v) hg
  rw [Sum.update_elim_inl] at hdetach
  obtain ⟨hgive, hmoved⟩ := hdetach.give (x := fun _ => 1) (h.pool v g hg)
  have hf' : tables (s.mem.fill g 1) root (path (vaOf v)) = some f := hmoved.table ▸ hf
  have hedits := hgive.setLeaf hf' 0
  have htab := tables_setPte hgive.distinct hf' 0
  have hleaf : ∀ va < maxva, leaf ((s.mem.fill g 1).setPte f (px 0 (vaOf v)) 0) root va =
      if vpn va = v then none else leaf s.mem root va := by
    intro va hva
    have hset := leaf_setPte hgive.distinct hf' 0 (vaOf_lt hlt) hva
    rw [vpn_vaOf hlt, valid_zero] at hset
    rw [← hmoved.leaf va]
    exact hset
  have hframes : leafFrames n ((s.mem.fill g 1).setPte f (px 0 (vaOf v)) 0) root =
      update (leafFrames n s.mem root) v none := leafFrames_update h.bound hv hleaf
  have hkeeps := hmoved.keeps.trans hedits.keeps
  refine ⟨⟨?_, hedits.sound (hmoved.sound h.sound), fun v' f' hf' => ?_, h.bound⟩, hkeeps.outer,
    htab.trans hmoved.table, hleaf, fun v' f' hne hf' => ?_⟩
  · show Tree _ root (Sum.elim (leafFrames n ((s.mem.fill g 1).setPte f (px 0 (vaOf v)) 0) root) ext) held
    rw [hframes]
    exact hedits.tree
  · have hf'' : update (leafFrames n s.mem root) v none v' = some f' := hframes ▸ hf'
    by_cases hne : v' = v
    · rw [hne, update_self] at hf''
      cases hf''
    · rw [update_of_ne hne] at hf''
      exact h.pool v' f' hf''
  · refine hkeeps.mem f' (.inl ⟨Sum.inl v', ?_⟩)
    rw [Sum.elim_inl, update_of_ne hne, hf']

theorem Space.unmapPage (h : Space n s root ext held) (hv : v < n) :
    Runs R (unmapPage root true (vaOf v)) s fun _ t => Unmapped n s t root ext held fun v' => v' = v := by
  have hlt := hv.trans_le h.bound
  have hsame : leaf s.mem root (vaOf v) = none → Unmapped n s s root ext held fun v' => v' = v := by
    intro hnone
    refine ⟨h, .refl .., rfl, fun va hva => ?_, fun _ _ _ _ => rfl⟩
    by_cases hvpn : vpn va = v
    · rw [if_pos hvpn, leaf_eq_of_vpn (vaOf_lt hlt) hva (by rw [hvpn, vpn_vaOf hlt]), hnone]
    · rw [if_neg hvpn]
  unfold Vm.unmapPage
  refine lookup_bind (vaOf_lt hlt) (fun hnone => ?_) fun f hf => ?_
  · exact .pure (hsame (by rw [leaf, hnone, Option.bind_none]))
  · refine getPte_bind ?_
    by_cases hvalid : s.mem.pte f (px 0 (vaOf v)) &&& pteV = 0
    · rw [if_pos hvalid]
      exact .pure (hsame (by rw [leaf_of_tables hf, (valid_eq_none_iff _).mpr hvalid]))
    · have hframe : leafFrames n s.mem root v = some (pteFrame (s.mem.pte f (px 0 (vaOf v)))) := by
        rw [leafFrames_of_lt hv, leaf_of_tables hf, valid_of_ne hvalid, Option.map_some]
      rw [if_neg hvalid, if_pos rfl]
      exact kfree_bind (h.pool v _ hframe) (.of_modify (h.drop hv hf hframe))

omit [DecidableEq P] in
theorem Unmapped.trans {gone' gone'' : Nat → Prop} [DecidablePred gone] [DecidablePred gone'] [DecidablePred gone'']
    (h : Unmapped n s t root ext held gone) (h' : Unmapped n t u root ext held gone')
    (hg : ∀ v, gone'' v ↔ gone v ∨ gone' v) : Unmapped n s u root ext held gone''  where
  space := h'.space
  keeps := h.keeps.trans h'.keeps
  table := h'.table.trans h.table
  leaf va hva := by
    rw [h'.leaf va hva, h.leaf va hva]
    simp only [hg]
    by_cases h1 : gone (vpn va) <;> by_cases h2 : gone' (vpn va) <;> simp [h1, h2]
  contents v f hne hf := by
    rw [hg, not_or] at hne
    have hv := lt_of_leafFrames hf
    have hlt := hv.trans_le h.space.bound
    have hft : leafFrames n t.mem root v = some f := by
      rw [leafFrames_of_lt hv, h.leaf _ (vaOf_lt hlt), vpn_vaOf hlt, if_neg hne.1, ← leafFrames_of_lt hv, hf]
    rw [h'.contents v f hne.2 hft, h.contents v f hne.1 hf]

omit [DecidableEq P] in
theorem Unmapped.congr {gone' : Nat → Prop} [DecidablePred gone] [DecidablePred gone']
    (h : Unmapped n s t root ext held gone) (hg : ∀ v, gone' v ↔ gone v) : Unmapped n s t root ext held gone' where
  space := h.space
  keeps := h.keeps
  table := h.table
  leaf va hva := by
    rw [h.leaf va hva]
    simp only [hg]
  contents v f hne hf := h.contents v f (fun hc => hne ((hg v).mpr hc)) hf

omit [DecidableEq P] in
theorem Unmapped.refl [DecidablePred gone] (h : Space n s root ext held) (hg : ∀ v, ¬ gone v) :
    Unmapped n s s root ext held gone := by
  refine ⟨h, .refl .., rfl, fun va _ => ?_, fun _ _ _ _ => rfl⟩
  rw [if_neg (hg _)]

theorem turns_vaOf {v0 : Nat} {npages : BitVec 64} (hv : v0 + npages.toNat ≤ 2 ^ 26) :
    turns (vaOf v0) (vaOf v0 + npages * 4096#64) = npages.toNat := by
  refine turns_pages ?_
  rw [toNat_vaOf (Nat.le_of_add_right_le hv)]
  omega

/-- `uvmunmap()` of user pages that are to be freed. -/
theorem Space.uvmunmap (h : Space n s root ext held) (v0 : Nat) (npages : BitVec 64) (hv : v0 + npages.toNat ≤ n) :
    Runs R (uvmunmap root (vaOf v0) npages true) s fun _ t =>
      Unmapped n s t root ext held fun v => v0 ≤ v ∧ v < v0 + npages.toNat := by
  have hle : v0 + npages.toNat ≤ 2 ^ 26 := hv.trans h.bound
  have haligned : vaOf v0 % 4096#64 = 0 := by
    apply BitVec.eq_of_toNat_eq
    rw [BitVec.toNat_umod]
    exact vaOf_aligned (Nat.le_of_add_right_le hle)
  unfold Vm.uvmunmap
  refine panicIf_bind (fun hc => absurd haligned hc) fun _ => ?_
  rw [turns_vaOf hle]
  refine Runs.forM_range (I := fun k t => Unmapped n s t root ext held fun v => v0 ≤ v ∧ v < v0 + k) ?_
    fun k hk t ht => ?_
  · exact .refl h fun v => by omega
  · rw [pgsize, vaOf_add]
    refine (ht.space.unmapPage (by omega)).mono fun _ u hu => ht.trans hu fun v => ?_
    omega

/-! ## Empty address spaces -/

/-- A page that `uvmcreate()` has made a page table. -/
structure Fresh (s : Phys) (root : Frame) : Prop where
  empty : ∀ i, child s.mem root i = none
  used : root ∉ s.freelist
  pool : s.InPool root

omit [DecidableEq P] in
/-- Places that are empty. -/
theorem Tree.empty {lf : Nat → Option Frame} (h : Tree s root ext held) (hlf : ∀ v, lf v = none) :
    Tree s root (Sum.elim lf ext) held := by
  refine ⟨h.exact.embed (Sum.map id Sum.inr) ?_ ?_, h.nodup⟩
  · rintro (p | q) <;> rfl
  · rintro (p | v | q) f hp
    · exact ⟨Sum.inl p, rfl⟩
    · exact absurd ((hlf v).symm.trans hp) (Option.some_ne_none f).symm
    · exact ⟨Sum.inr q, rfl⟩

omit [DecidableEq P] in
theorem Fresh.space (h : Fresh s root) (hs : Heap s) (hn : n ≤ 2 ^ 26) : Space n s root (others s root) [] := by
  have hframes : ∀ v, leafFrames n s.mem root v = none := fun v => leafFrames_of_none (leaf_of_empty h.empty)
  refine ⟨(wellFormed_of_empty h.empty h.used hs.nodup).tree.empty hframes,
    ⟨hs.pool, fun p f hp => ?_, fun p f i w _ hp hw => ?_⟩, fun v f hv =>
    absurd ((hframes v).symm.trans hv) (Option.some_ne_none f).symm, hn⟩
  · rw [(node_of_empty h.empty hp).2]
    exact h.pool
  · have hnone := h.empty i
    rw [(node_of_empty h.empty hp).2] at hw
    rw [child, hw] at hnone
    cases hnone

omit [DecidableEq P] in
theorem missing_le (m : Mem) (root : Frame) (va : BitVec 64) : missing m root va ≤ 2 := by
  rw [missing]
  split
  · exact Nat.le_refl 2
  · split
    · exact Nat.le_succ 1
    · exact Nat.zero_le 2

theorem blank_inPool (h : 0 < f.toNat ∧ f.toNat < 2 ^ 10) : blank.InPool f := by
  have hkend : blank.kend = 4096 := rfl
  rw [Phys.InPool, toNat_addr, phystop, hkend]
  omega

theorem blank_heap : Heap blank := by
  have hsmall : ∀ f ∈ blank.freelist, 0 < f.toNat ∧ f.toNat < 2 ^ 10 := by simp [blank]
  exact ⟨by decide, fun f hf => blank_inPool (hsmall f hf)⟩

/-- There are address spaces of one page. -/
theorem exists_page (x : Nat → UInt8) (perm : BitVec 64) (hperm : perm.toNat < 2 ^ 10) (hn : n ≤ 2 ^ 26) (h0 : 0 < n) :
    ∃ t, Extended n blank t 7 (others blank 7) [] 0 1 x perm := by
  have hspace : Space n blank 7 (others blank 7) [] :=
  Fresh.space ⟨blank_empty 7, by decide, blank_inPool (by decide)⟩ blank_heap hn
  have hrun := hspace.mapFresh_bind (R := fun _ => False) (F := pure ()) (G := pure ()) (x := x)
    (Q := fun _ t => Extended n blank t 7 (others blank 7) [] 0 1 x perm) rfl h0 (leaf_of_empty (blank_empty 7)) hperm
    (fun t ht => ?_) fun t ht => .pure ht
  · obtain ⟨-, ht⟩ := hrun.final
    exact ⟨_, ht⟩
  · have hshort : 6 < 1 + missing blank.mem 7 (vaOf 0) := ht.short
    have hle := missing_le blank.mem 7 (vaOf 0)
    omega

end

end Xv6.Vm
