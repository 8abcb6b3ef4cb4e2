import Xv6.Vm.ProcTable
import Xv6.Vm.Strings

/-!
# Pages that a system call borrows

A call takes pages for itself, reads user memory into them, and gives them back.

* `Touched s t root psz ext` : pages of the process may have been faulted in, and nothing else has changed;
* `borrowed ext l` : the places `ext`, and those of the pages `l` that the call has taken;
* `UserTable.borrow`, `UserTable.fill` : a page is taken, and written;
* `giveBack_spec` : all pages are given back.
-/

namespace Xv6.Vm
open Radix Alloc Hoare Function

section
variable {P Q : Type} {s t u : Phys} {root f r : Frame} {ext : P → Option Frame} {ext' : Q → Option Frame}
  {psz : BitVec 64} {l rest : List Frame} {x : Nat → UInt8} {n : Nat}

/-! ## What reading may change -/

structure Touched (s t : Phys) (root : Frame) (psz : BitVec 64) (ext : P → Option Frame) : Prop where
  keeps : Keeps s t root ext []
  kept : ∀ va < maxva, ∀ w, leaf s.mem root va = some w → leaf t.mem root va = some w
  fresh : ∀ va < maxva, ∀ w, leaf s.mem root va = none → leaf t.mem root va = some w →
    pgrounddown va < psz ∧ ¬ NotWritable w
  byte : ∀ va, userByte t root psz va = userByte s root psz va
  guarded : ∀ va < maxva, ∀ w, leaf s.mem root va = some w → NotWritable w → t.mem (pteFrame w) = s.mem (pteFrame w)

theorem Accessed.touched (h : Accessed n s t root psz ext fun _ => none) : Touched s t root psz ext :=
  ⟨h.keeps, h.kept, h.fresh, fun va => (h.byte va).trans Option.none_or, h.guarded⟩

theorem Touched.accessed (h : Touched s t root psz ext) (ht : UserTable n t root psz ext) :
    Accessed n s t root psz ext fun _ => none :=
  ⟨ht, h.keeps, h.kept, h.fresh, fun va => (h.byte va).trans Option.none_or.symm, h.guarded⟩

theorem Touched.sub (h : Touched s t root psz ext') (hsub : ∀ q f, ext q = some f → ∃ q', ext' q' = some f) :
    Touched s t root psz ext :=
  { h with keeps :=
  ⟨h.keeps.kend, h.keeps.table, fun f hf => h.keeps.mem f (hf.imp_left fun ⟨q, hq⟩ => hsub q f hq), h.keeps.low⟩ }

theorem Touched.trans (h : Touched s t root psz ext) (h' : Touched t u root psz ext) : Touched s u root psz ext where
  keeps := h.keeps.trans h'.keeps
  kept va hva w hw := h'.kept va hva w (h.kept va hva w hw)
  fresh va hva w hnone hw := by
    cases ht : leaf t.mem root va with
    | none => exact h'.fresh va hva w ht hw
    | some w' =>
      have heq : w' = w := Option.some.inj ((h'.kept va hva w' ht).symm.trans hw)
      exact h.fresh va hva w hnone (heq ▸ ht)
  byte va := (h'.byte va).trans (h.byte va)
  guarded va hva w hw hdeny := (h'.guarded va hva w (h.kept va hva w hw) hdeny).trans (h.guarded va hva w hw hdeny)

section
variable (hkernel : Kernel userPages s root psz ext) (htables : ∀ p f, tables s.mem root p = some f → t.mem f = s.mem f)
include hkernel htables

/-- A change that the process does not see. -/
theorem Kernel.touched (hkend : t.kend = s.kend)
    (hleaves : ∀ v f, leafFrames userPages s.mem root v = some f → t.mem f = s.mem f)
    (hext : ∀ q f, ext q = some f → t.mem f = s.mem f) : Touched s t root psz ext := by
  have hleaf := leaf_congr htables
  have hmem : ∀ va < maxva, ∀ w, leaf s.mem root va = some w → t.mem (pteFrame w) = s.mem (pteFrame w) := by
    intro va hva w hw
    by_cases hv : vpn va < userPages
    · exact hleaves _ _ (leafFrames_of_leaf hva hv hw)
    · obtain ⟨-, q, hq⟩ := hkernel.only va hva (Nat.le_of_not_lt hv) w hw
      exact hext q _ hq
  refine ⟨⟨hkend, fun p f hf => (tables_congr htables p).trans hf, fun f hf => ?_, fun hlow => ?_⟩, fun va _ w hw =>
    (hleaf va).trans hw, fun va _ w hnone hw => ?_, fun va => userByte_congr (hleaf va) (hmem va), fun va hva w hw _ =>
    hmem va hva w hw⟩
  · rcases hf with ⟨q, hq⟩ | hf
    · exact hext q f hq
    · exact absurd hf List.not_mem_nil
  · rwa [Low, show tables t.mem root = tables s.mem root from funext (tables_congr htables)]
  · rw [hleaf, hnone] at hw
    cases hw

theorem Kernel.transport : Kernel userPages t root psz ext := by
  have hleaf := leaf_congr htables
  refine ⟨fun va hva hge hnone => hkernel.size va hva hge ((hleaf va).symm.trans hnone), fun va hva hge w hw => ?_⟩
  rw [hleaf] at hw
  exact hkernel.only va hva hge w hw

end

/-! ## Borrowed pages -/

def borrowed (ext : P → Option Frame) (l : List Frame) : P ⊕ Nat → Option Frame := Sum.elim ext fun i => l[i]?

/-- The address space of a process, while a call has the pages `l`. -/
structure Borrowing (s : Phys) (root : Frame) (psz : BitVec 64) (ext : P → Option Frame) (l : List Frame) : Prop where
  space : Space userPages s root (borrowed ext l) []
  kernel : Kernel userPages s root psz ext
  kend : 0 < s.kend
  pool : ∀ f ∈ l, s.InPool f

theorem Borrowing.table (h : Borrowing s root psz ext l) : UserTable userPages s root psz (borrowed ext l) := by
  refine ⟨h.space, ⟨h.kernel.size, fun va hva hge w hw => ?_⟩, h.kend⟩
  obtain ⟨huser, q, hq⟩ := h.kernel.only va hva hge w hw
  exact ⟨huser, Sum.inl q, hq⟩

theorem Borrowing.of_table (h : UserTable userPages s root psz ext) : Borrowing s root psz ext [] := by
  refine ⟨h.space.transport ⟨h.space.tree.nodup, h.space.sound.free⟩ rfl (fun _ _ _ => rfl) ?_, h.kernel, h.kend,
    fun f hf => absurd hf List.not_mem_nil⟩
  refine h.space.tree.exact.embed (fun y => match y with
    | .inl p => .inl p
    | .inr (.inl v) => .inr (.inl v)
    | .inr (.inr q) => .inr (.inr (.inl q))) (fun y => ?_) fun y f hf => ?_
  · rcases y with p | v | q <;> rfl
  · rcases y with p | v | q | i
    · exact ⟨.inl p, rfl⟩
    · exact ⟨.inr (.inl v), rfl⟩
    · exact ⟨.inr (.inr q), rfl⟩
    · simp [borrowed] at hf

/-- User memory is read. -/
theorem Borrowing.accessed (h : Borrowing s root psz ext l)
    (hacc : Accessed userPages s t root psz (borrowed ext l) fun _ => none) :
    Borrowing t root psz ext l ∧ Touched s t root psz ext := by
  refine ⟨⟨hacc.table.space, ⟨hacc.table.kernel.size, fun va hva hge w hw => ?_⟩, hacc.table.kend,
    fun f hf => (inPool_congr hacc.keeps.kend).mpr (h.pool f hf)⟩, hacc.touched.sub fun q f hq => ⟨Sum.inl q, hq⟩⟩
  cases hs : leaf s.mem root va with
  | none =>
    have hlt := (hacc.fresh va hva w hs hw).1
    exact absurd hlt (BitVec.not_lt.mpr (h.kernel.size va hva hge hs))
  | some w' =>
    have heq : w' = w := Option.some.inj ((hacc.kept va hva w' hs).symm.trans hw)
    exact heq ▸ h.kernel.only va hva hge w' hs

/-- A page is taken. -/
theorem Borrowing.take (h : Borrowing s root psz ext l) (hfree : s.freelist = r :: rest) :
    Borrowing { s with mem := update s.mem r x, freelist := rest } root psz ext (l ++ [r]) ∧
      Touched s { s with mem := update s.mem r x, freelist := rest } root psz ext := by
  classical
  have hmem : r ∈ s.freelist := hfree ▸ List.mem_cons_self
  have hne : ∀ {f}, f ∉ s.freelist → update s.mem r x f = s.mem f := by
    intro f hf
    refine update_of_ne ?_ ..
    rintro rfl
    exact hf hmem
  have htables : ∀ p f, tables s.mem root p = some f → update s.mem r x f = s.mem f := fun p f hf =>
    hne (h.space.tree.not_free hf)
  have hnodup := h.space.tree.nodup
  rw [hfree, List.nodup_cons] at hnodup
  refine ⟨⟨h.space.transport ⟨hnodup.2, fun f hf =>
    h.space.sound.free f (hfree ▸ List.mem_cons_of_mem r hf)⟩ rfl htables ?_, h.kernel.transport htables, h.kend,
    fun f hf => ?_⟩, h.kernel.touched htables rfl (fun v f hf => hne (h.space.not_free hf))
    fun q f hq => hne (h.space.not_free_ext (q := Sum.inl q) hq)⟩
  · have halloc := h.space.tree.exact.alloc (fun hc => hc hmem) (used_take hfree h.space.tree.nodup (update s.mem r x))
    refine (halloc.attach (p := Sum.inr (Sum.inr (Sum.inr l.length))) ?_).congr_own fun y => ?_
    · simp [borrowed]
    · rcases y with p | v | q | i
      · rw [update_of_ne Sum.inl_ne_inr]
        rfl
      · rw [update_of_ne (by simp)]
        rfl
      · rw [update_of_ne (by simp)]
        rfl
      · by_cases hi : i = l.length
        · rw [hi, update_self]
          simp [borrowed]
        · rw [update_of_ne (by simpa using hi)]
          show (l ++ [r])[i]? = l[i]?
          by_cases hlt : i < l.length
          · rw [List.getElem?_append_left hlt]
          · rw [List.getElem?_eq_none (by simp; omega), List.getElem?_eq_none (by omega)]
  · rcases List.mem_append.mp hf with hf | hf
    · exact h.pool f hf
    · rw [List.mem_singleton.mp hf]
      exact h.space.sound.free r hmem

/-- A page of the call is written. -/
theorem Borrowing.write (h : Borrowing s root psz ext l) (hf : f ∈ l) :
    Borrowing { s with mem := update s.mem f x } root psz ext l ∧
      Touched s { s with mem := update s.mem f x } root psz ext := by
  obtain ⟨i, hi⟩ := List.mem_iff_getElem?.mp hf
  obtain ⟨hspace, htables, hleaves⟩ := h.space.writeOther (q := Sum.inr i) (x := x) hi
  refine ⟨⟨hspace, h.kernel.transport htables, h.kend, h.pool⟩, h.kernel.touched htables rfl hleaves fun q g hq => ?_⟩
  refine update_of_ne (fun hc => ?_) ..
  have honce := h.space.tree.exact.once (p := Sum.inr (Sum.inr (Sum.inl q))) (q :=
  Sum.inr (Sum.inr (Sum.inr i))) (b := f)
    (hc ▸ hq) hi
  simp at honce

/-! ## The way back -/

/-- The first page of the call is free. -/
theorem Space.giveFirst (h : Space n s root (borrowed ext (f :: l)) []) (hpool : s.InPool f) :
    Space n { s with mem := s.mem.fill f 1, freelist := f :: s.freelist } root (borrowed ext l) [] := by
  classical
  have hown : Sum.elim (tables s.mem root) (Sum.elim (leafFrames n s.mem root) (borrowed ext (f :: l)))
      (Sum.inr (Sum.inr (Sum.inr 0))) =
      some f := rfl
  have hused : f ∉ s.freelist := h.not_free_ext (q := Sum.inr 0) rfl
  have htables : ∀ p g, tables s.mem root p = some g → s.mem.fill f 1 g = s.mem g := fun p g hg =>
    fill_of_ne fun hc => h.tree.ne_ext hg (q := Sum.inr (Sum.inr 0)) (g := f) rfl hc.symm
  refine h.transport ⟨List.nodup_cons.mpr ⟨hused, h.tree.nodup⟩, fun g hg => ?_⟩ rfl htables ?_
  · rcases List.mem_cons.mp hg with rfl | hg
    · exact hpool
    · exact h.sound.free g hg
  · have hfree : ∀ c, c ∉ f :: s.freelist ↔ c ≠ f ∧ c ∉ s.freelist := fun c => by rw [List.mem_cons, not_or]
    have hdetach := (h.tree.exact.detach hown).free hfree
    refine hdetach.restrict (fun y => match y with
      | .inl p => .inl p
      | .inr (.inl v) => .inr (.inl v)
      | .inr (.inr (.inl q)) => .inr (.inr (.inl q))
      | .inr (.inr (.inr i)) => .inr (.inr (.inr (i + 1)))) ?_ (fun y => ?_) fun y g hg => ?_
    · rintro (p | v | q | i) (p' | v' | q' | i') heq <;> cases heq <;> rfl
    · rcases y with p | v | q | i
      · rw [update_of_ne (by simp)]
        rfl
      · rw [update_of_ne (by simp)]
        rfl
      · rw [update_of_ne (by simp)]
        rfl
      · rw [update_of_ne (by simp)]
        rfl
    · rcases y with p | v | q | i
      · exact ⟨.inl p, rfl⟩
      · exact ⟨.inr (.inl v), rfl⟩
      · exact ⟨.inr (.inr (.inl q)), rfl⟩
      · cases i with
        | zero =>
          rw [update_self] at hg
          cases hg
        | succ i => exact ⟨.inr (.inr (.inr i)), rfl⟩

/-- All pages of the call are free. -/
theorem giveBack_spec {R : VmPanic → Prop} (l : List Frame) :
    ∀ s : Phys, Space n s root (borrowed ext l) [] → (∀ f ∈ l, s.InPool f) →
    Runs R (forM l kfree) s fun _ t => Space n t root ext [] ∧ t.kend = s.kend ∧ ∀ f, f ∉ l → t.mem f = s.mem f := by
  induction l with
  | nil =>
    intro s h _
    refine .pure ⟨h.transport ⟨h.tree.nodup, h.sound.free⟩ rfl (fun _ _ _ => rfl) ?_, rfl, fun _ _ => rfl⟩
    refine h.tree.exact.restrict (fun y => match y with
      | .inl p => .inl p
      | .inr (.inl v) => .inr (.inl v)
      | .inr (.inr q) => .inr (.inr (.inl q))) ?_ (fun y => ?_) fun y f hf => ?_
    · rintro (p | v | q) (p' | v' | q') heq <;> cases heq <;> rfl
    · rcases y with p | v | q <;> rfl
    · rcases y with p | v | q | i
      · exact ⟨.inl p, rfl⟩
      · exact ⟨.inr (.inl v), rfl⟩
      · exact ⟨.inr (.inr q), rfl⟩
      · simp [borrowed] at hf
  | cons f l ih =>
    intro s h hpool
    rw [List.forM_cons]
    refine kfree_bind (hpool f List.mem_cons_self) ?_
    refine (ih _ (h.giveFirst (hpool f List.mem_cons_self)) fun g hg => hpool g (List.mem_cons_of_mem f hg)).mono
      fun _ t ht => ?_
    obtain ⟨hspace, hkend, hmem⟩ := ht
    refine ⟨hspace, hkend, fun g hg => ?_⟩
    rw [List.mem_cons, not_or] at hg
    rw [hmem g hg.2]
    exact fill_of_ne hg.1

/-- The pages of the call are no pages of the process, and no pages of others. -/
theorem Space.ne_borrowed (h : Space n s root (borrowed ext l) []) :
    (∀ p f, tables s.mem root p = some f → f ∉ l) ∧ (∀ v f, leafFrames n s.mem root v = some f → f ∉ l) ∧
      ∀ q f, ext q = some f → f ∉ l := by
  refine ⟨fun p f hf hl => ?_, fun v f hf hl => ?_, fun q f hq hl => ?_⟩
  · obtain ⟨i, hi⟩ := List.mem_iff_getElem?.mp hl
    exact h.tree.ne_ext hf (q := Sum.inr (Sum.inr i)) (g := f) hi rfl
  · obtain ⟨i, hi⟩ := List.mem_iff_getElem?.mp hl
    exact h.ne_ext hf (Sum.inr i) hi
  · obtain ⟨i, hi⟩ := List.mem_iff_getElem?.mp hl
    have honce := h.tree.exact.once (p := Sum.inr (Sum.inr (Sum.inl q))) (q :=
    Sum.inr (Sum.inr (Sum.inr i))) (b := f) hq hi
    simp at honce

theorem Borrowing.giveBack {R : VmPanic → Prop} (h : Borrowing s root psz ext l) :
    Runs R (forM l kfree) s fun _ t => UserTable userPages t root psz ext ∧ Touched s t root psz ext := by
  obtain ⟨htables, hleaves, hext⟩ := h.space.ne_borrowed
  refine (giveBack_spec l s h.space h.pool).mono fun _ t ht => ?_
  obtain ⟨hspace, hkend, hmem⟩ := ht
  have htables' : ∀ p f, tables s.mem root p = some f → t.mem f = s.mem f := fun p f hf => hmem f (htables p f hf)
  exact ⟨⟨hspace, h.kernel.transport htables', hkend ▸ h.kend⟩, h.kernel.touched htables' hkend
    (fun v f hf => hmem f (hleaves v f hf)) fun q f hq => hmem f (hext q f hq)⟩

end

end Xv6.Vm
