import Xv6.Lib.Chain
import Xv6.Lib.Fuel
import Xv6.User.Malloc
import Mathlib.Algebra.BigOperators.Group.List.Basic
import Mathlib.Algebra.Order.Group.Nat

/-!
# The heap of a user program

* `Inv base h R live` : `R` is the free list in address order from `base` on, `live` are the headers of the blocks in
  use; free and live blocks tile the memory from `sbrk()`, and no two free blocks touch;
* `Heap.Serves base nbytes` : a request for which a block is free or `sbrk()` can be asked;
* `free_spec`, `malloc_spec` : what the calls do to the two lists.
-/

namespace Xv6.User
open Chain Fuel Function

/-! ## Blocks -/

/-- Two blocks do not overlap. -/
def Apart (size : Nat → Nat) (a b : Nat) : Prop := a + 16 * size a ≤ b ∨ b + 16 * size b ≤ a

theorem Apart.symm {size : Nat → Nat} {a b : Nat} (h : Apart size a b) : Apart size b a := Or.symm h

/-- Block `a` ends before `b` begins, and they do not touch. -/
def Gap (size : Nat → Nat) (a b : Nat) : Prop := a + 16 * size a < b

/-- The byte at `x` is memory that `sbrk()` has returned. -/
def Heap.Owned (h : Heap) (x : Nat) : Prop := ∃ c ∈ h.calls, ∃ a, c.answer = some a ∧ a ≤ x ∧ (x : Int) < a + c.arg

/-- The units that `morecore()` has added to the heap. -/
def Heap.units (h : Heap) : Nat := (h.calls.map fun c => if c.answer.isSome then c.units else 0).sum

/-- The bytes of block `b` are memory that `sbrk()` has returned. -/
def Heap.Inside (h : Heap) (b : Nat) : Prop := ∀ x, b ≤ x → x < b + 16 * h.size b → h.Owned x

def sizes (h : Heap) (l : List Nat) : Nat := (l.map h.size).sum

structure Inv (base : Nat) (h : Heap) (R live : List Nat) : Prop where
  head : R.head? = some base
  ring : Seg h.ptr R base
  freep : h.freep ∈ R
  zero : h.size base = 0
  pos : ∀ b ∈ R, b ≠ base → 0 < h.size b ∧ base + 16 ≤ b
  posLive : ∀ a ∈ live, 0 < h.size a ∧ base + 16 ≤ a
  order : R.Pairwise (Gap h.size)
  apart : live.Pairwise (Apart h.size)
  cross : ∀ a ∈ live, ∀ b ∈ R, Apart h.size a b
  inside : ∀ b ∈ R ++ live, h.Inside b
  total : sizes h (R ++ live) = h.units

section
variable {base bp p q nu : Nat} {h : Heap} {R A B live : List Nat} {b fuel a nunits nbytes : Nat} {l : List Nat}
  {h' : Heap} {size size' : Nat → Nat} {answer : Option Nat}

theorem Inv.perm {live' : List Nat} (hi : Inv base h R live) (hp : live.Perm live') : Inv base h R live' where
  head := hi.head
  ring := hi.ring
  freep := hi.freep
  zero := hi.zero
  pos := hi.pos
  posLive a ha := hi.posLive a (hp.mem_iff.mpr ha)
  order := hi.order
  apart := (hp.pairwise_iff fun h => h.symm).mp hi.apart
  cross a ha := hi.cross a (hp.mem_iff.mpr ha)
  inside b hb := hi.inside b (((hp.append_left R).mem_iff).mpr hb)
  total := by
    rw [← hi.total]
    exact (((hp.append_left R).map h.size).sum_eq).symm

theorem Inv.sorted (hi : Inv base h R live) : R.Pairwise (· < ·) :=
  hi.order.imp fun hab => Nat.lt_of_le_of_lt (Nat.le_add_right ..) hab

theorem Inv.base_le (hi : Inv base h R live) (hb : b ∈ R) : base ≤ b := by
  by_cases hc : b = base
  · exact Nat.le_of_eq hc.symm
  · exact (Nat.le_add_right ..).trans (hi.pos b hb hc).2

/-! ## The search of `free` -/

/-- Where a block belongs in an ascending list. -/
theorem exists_place (hs : (base :: l).Pairwise (· < ·)) (hb : base < bp) (hn : bp ∉ l) :
    ∃ A q B, base :: l = A ++ q :: B ∧ (∀ a ∈ A, a < bp) ∧ q < bp ∧ ∀ b ∈ B, bp < b := by
  induction l generalizing base with
  | nil => exact ⟨[], base, [], rfl, fun _ ha => absurd ha List.not_mem_nil, hb, fun _ hb => absurd hb List.not_mem_nil⟩
  | cons c l ih =>
    rw [List.mem_cons, not_or] at hn
    have hs' := List.pairwise_cons.mp hs
    by_cases hc : c < bp
    · obtain ⟨A, q, B, heq, hA, hq, hB⟩ := ih hs'.2 hc hn.2
      refine ⟨base :: A, q, B, by rw [heq, List.cons_append], fun a ha => ?_, hq, hB⟩
      rcases List.mem_cons.mp ha with rfl | ha
      · exact hb
      · exact hA a ha
    · have hlt : bp < c := by omega
      refine ⟨[], base, c :: l, rfl, fun _ ha => absurd ha List.not_mem_nil, hb, fun b hb => ?_⟩
      rcases List.mem_cons.mp hb with rfl | hb
      · exact hlt
      · exact hlt.trans ((List.pairwise_cons.mp hs'.2).1 b hb)

/-- From a node before the place, the search goes up to it. -/
theorem place_before {C : List Nat} {k : Nat} (hseg : Seg h.ptr (C ++ q :: B) base)
    (hs : (C ++ q :: B).Pairwise (· < ·)) (hC : ∀ a ∈ C, a < bp) (hq : q < bp)
    (hB : ∀ b ∈ B, bp < b) (hbase : base ≤ q) : h.place bp (C.length + 1 + k) (C.headD q) = some q := by
  induction C with
  | nil =>
    have hnext := hseg.1
    rw [List.length_nil, Nat.zero_add, Nat.add_comm, Heap.place, List.headD_nil]
    cases B with
    | nil =>
      rw [List.headD_nil] at hnext
      rw [hnext]
      split
      · rfl
      · exact if_pos ⟨hbase, .inl hq⟩
    | cons b B => rw [hnext, if_pos ⟨hq, hB b List.mem_cons_self⟩]
  | cons c C ih =>
    have hs' := List.pairwise_cons.mp hs
    have hnext : h.ptr c = C.headD q := by
      rw [hseg.1]
      cases C <;> rfl
    have hmem : C.headD q ∈ C ++ q :: B := by cases C <;> simp
    have hlt : c < C.headD q := hs'.1 _ hmem
    have hlt' : C.headD q < bp := by
      cases C with
      | nil => exact hq
      | cons d C => exact hC d (by simp)
    rw [List.length_cons, Nat.add_right_comm C.length 1 1, Nat.add_right_comm _ 1 k, Heap.place, List.headD_cons, hnext,
      if_neg (by omega), if_neg (by omega)]
    exact ih hseg.2 hs'.2 fun a ha => hC a (List.mem_cons_of_mem c ha)

/-- From a node after the place, the search goes up to the end and starts over. -/
theorem place_after {D : List Nat} {k : Nat} (hseg : Seg h.ptr D base) (hs : D.Pairwise (· < ·)) (hD : ∀ d ∈ D, bp < d)
    (hbase : base < bp) : h.place bp (D.length + k) (D.headD base) = h.place bp k base := by
  induction D with
  | nil => rw [List.length_nil, Nat.zero_add, List.headD_nil]
  | cons d D ih =>
    have hs' := List.pairwise_cons.mp hs
    have hd := hD d List.mem_cons_self
    have hnext : ¬ (h.ptr d ≤ d ∧ (d < bp ∨ bp < h.ptr d)) := by
      rw [hseg.1]
      cases D with
      | nil =>
        rw [List.headD_nil]
        omega
      | cons e D =>
        have hlt := hs'.1 e List.mem_cons_self
        rw [List.headD_cons]
        omega
    rw [List.length_cons, Nat.add_right_comm D.length 1 k, Heap.place, List.headD_cons, if_neg (by omega), if_neg hnext,
      hseg.1]
    exact ih hseg.2 hs'.2 fun e he => hD e (List.mem_cons_of_mem d he)

/-- Where the search ends: `bp` belongs between `q` and `B`. -/
structure Between (bp : Nat) (A : List Nat) (q : Nat) (B : List Nat) : Prop where
  left : ∀ a ∈ A, a < bp
  here : q < bp
  right : ∀ b ∈ B, bp < b

theorem place_spec (hi : Inv base h R live) (hbp : base < bp) (hn : bp ∉ R) (hfuel : R.length < fuel) :
    ∃ A q B, R = A ++ q :: B ∧ Between bp A q B ∧ h.place bp fuel h.freep = some q := by
  obtain ⟨l, rfl⟩ : ∃ l, R = base :: l := by
    have hhead := hi.head
    cases R with
    | nil => cases hhead
    | cons b l => exact ⟨l, by rw [Option.some.inj hhead]⟩
  obtain ⟨A, q, B, heq, hA, hq, hB⟩ := exists_place hi.sorted hbp fun hc => hn (List.mem_cons_of_mem base hc)
  have hhead : A.headD q = base := by
    cases A with
    | nil => exact (List.cons.inj heq).1.symm
    | cons a A => exact (List.cons.inj heq).1.symm
  have hbase : base ≤ q := hi.base_le (heq ▸ by simp)
  have hring := hi.ring
  have hsorted := hi.sorted
  have hfreep := hi.freep
  rw [heq] at hring hsorted hfreep hfuel
  rw [List.length_append, List.length_cons] at hfuel
  refine ⟨A, q, B, heq, ⟨hA, hq, hB⟩, ?_⟩
  rcases List.mem_append.mp hfreep with hmem | hmem
  · obtain ⟨A', C, rfl⟩ := List.append_of_mem hmem
    rw [List.append_assoc] at hring hsorted
    rw [List.length_append] at hfuel
    obtain ⟨k, rfl⟩ : ∃ k, fuel = (h.freep :: C).length + 1 + k := Nat.exists_eq_add_of_le (by omega)
    refine place_before (C := h.freep :: C) (seg_append.mp hring).2 (List.pairwise_append.mp hsorted).2.1
      (fun a ha => ?_) hq hB hbase
    exact hA a (List.mem_append_right A' ha)
  · rcases List.mem_cons.mp hmem with hmem | hmem
    · obtain ⟨k, rfl⟩ : ∃ k, fuel = ([] : List Nat).length + 1 + k :=
        Nat.exists_eq_add_of_le (by rw [List.length_nil]; omega)
      rw [hmem]
      exact place_before (C := []) (seg_append.mp hring).2 (List.pairwise_append.mp hsorted).2.1
        (fun _ ha => absurd ha List.not_mem_nil) hq hB hbase
    · obtain ⟨B', D, rfl⟩ := List.append_of_mem hmem
      have hseg := (seg_append.mp (seg_append.mp hring).2.2).2
      have hs := (List.pairwise_append.mp (List.pairwise_cons.mp (List.pairwise_append.mp hsorted).2.1).2).2.1
      rw [List.length_append] at hfuel
      obtain ⟨k, hk⟩ : ∃ k, fuel = (h.freep :: D).length + (A.length + 1) + k := Nat.exists_eq_add_of_le (by omega)
      obtain rfl : fuel = (h.freep :: D).length + (A.length + 1 + k) := by omega
      have hafter := place_after (k := A.length + 1 + k) hseg hs (fun d hd => hB d (List.mem_append_right B' hd)) hbp
      rw [List.headD_cons] at hafter
      rw [hafter, ← hhead]
      exact place_before hring hsorted hA hq hB hbase

/-! ## The merges of `free` -/

/-- The block `bp` is in no list; it belongs between `q` and `B`, and does not touch `B`. -/
structure Loose (base : Nat) (h : Heap) (A : List Nat) (q : Nat) (B : List Nat) (bp : Nat) (live : List Nat) :
    Prop where
  head : (A ++ [q]).head? = some base
  left : Seg h.ptr A q
  right : Seg h.ptr B base
  link : h.ptr bp = B.headD base
  zero : h.size base = 0
  pos : ∀ b ∈ A ++ q :: B, b ≠ base → 0 < h.size b ∧ base + 16 ≤ b
  posHere : 0 < h.size bp ∧ base + 16 ≤ bp
  posLive : ∀ a ∈ live, 0 < h.size a ∧ base + 16 ≤ a
  order : (A ++ q :: B).Pairwise (Gap h.size)
  before : ∀ a ∈ A ++ [q], a + 16 * h.size a ≤ bp
  after : ∀ b ∈ B, Gap h.size bp b
  apart : live.Pairwise (Apart h.size)
  crossHere : ∀ a ∈ live, Apart h.size a bp
  cross : ∀ a ∈ live, ∀ b ∈ A ++ q :: B, Apart h.size a b
  inside : ∀ b ∈ bp :: (A ++ q :: B ++ live), h.Inside b
  total : sizes h (bp :: (A ++ q :: B ++ live)) = h.units

theorem sizes_append (h : Heap) (l l' : List Nat) : sizes h (l ++ l') = sizes h l + sizes h l' := by
  rw [sizes, sizes, sizes, List.map_append, List.sum_append]

theorem sizes_cons (h : Heap) (a : Nat) (l : List Nat) : sizes h (a :: l) = h.size a + sizes h l := by
  rw [sizes, sizes, List.map_cons, List.sum_cons]

theorem sizes_congr (hs : ∀ a ∈ l, h'.size a = h.size a) : sizes h' l = sizes h l := by
  rw [sizes, sizes, List.map_congr_left hs]

theorem gap_congr (h : l.Pairwise (Gap size)) (hs : ∀ a ∈ l, size' a = size a) : l.Pairwise (Gap size') :=
  h.imp_of_mem fun ha _ hab => by
    rw [Gap, hs _ ha]
    exact hab

theorem apart_congr (h : Apart size a b) (ha : size' a = size a) (hb : size' b = size b) :
    Apart size' a b := by
  rw [Apart, ha, hb]
  exact h

theorem apart_pairwise_congr (h : l.Pairwise (Apart size)) (hs : ∀ a ∈ l, size' a = size a) :
    l.Pairwise (Apart size') :=
  h.imp_of_mem fun ha hb hab => apart_congr hab (hs _ ha) (hs _ hb)

theorem inside_congr (hi : h.Inside b) (hc : h'.calls = h.calls) (hs : h'.size b = h.size b) :
    h'.Inside b := by
  intro x hx hx'
  rw [hs] at hx'
  rw [Heap.Owned, hc]
  exact hi x hx hx'

theorem units_congr (hc : h'.calls = h.calls) : h'.units = h.units := by rw [Heap.units, Heap.units, hc]

/-- A block in use is in no other place. -/
theorem Inv.fresh (hi : Inv base h R (bp :: live)) : bp ∉ R ∧ bp ∉ live := by
  have hpos := (hi.posLive bp List.mem_cons_self).1
  refine ⟨fun hc => ?_, fun hc => ?_⟩
  · have hap := hi.cross bp List.mem_cons_self bp hc
    rw [Apart] at hap
    omega
  · have hap := (List.pairwise_cons.mp hi.apart).1 bp hc
    rw [Apart] at hap
    omega

/-- Only `bp` has changed, and blocks `D` after `q` have been left out. -/
theorem Inv.loosen {D : List Nat} (hi : Inv base h (A ++ q :: (D ++ B)) (bp :: live)) (hbt : Between bp A q (D ++ B))
    (hsize : ∀ x, x ≠ bp → h'.size x = h.size x) (hptr : ∀ x, x ≠ bp → h'.ptr x = h.ptr x) (hcalls : h'.calls = h.calls)
    (hlink : h'.ptr bp = B.headD base) (hgrow : h.size bp ≤ h'.size bp) (hafter : ∀ b ∈ B, Gap h'.size bp b)
    (hcross : ∀ a ∈ live, Apart h'.size a bp) (hinside : h'.Inside bp)
    (htotal : h'.size bp + sizes h B = h.size bp + sizes h (D ++ B)) : Loose base h' A q B bp live := by
  obtain ⟨hfresh, hfresh'⟩ := hi.fresh
  have hsub : (A ++ q :: B).Sublist (A ++ q :: (D ++ B)) :=
    (List.Sublist.refl A).append (List.Sublist.cons_cons q (List.sublist_append_right D B))
  have hne : ∀ b ∈ A ++ q :: B, b ≠ bp := by
    rintro b hb rfl
    exact hfresh (hsub.subset hb)
  have hneLive : ∀ a ∈ live, a ≠ bp := by
    rintro a ha rfl
    exact hfresh' ha
  obtain ⟨hA, -, hDB⟩ := seg_append.mp hi.ring
  have hB := (seg_append.mp hDB).2
  have hpos := hi.posLive bp List.mem_cons_self
  have hzero : base ≠ bp := by omega
  refine ⟨?_, ?_, ?_, hlink, ?_, ?_, ⟨Nat.lt_of_lt_of_le hpos.1 hgrow, hpos.2⟩, ?_, ?_, ?_, hafter, ?_,
    hcross, ?_, ?_, ?_⟩
  · rw [← hi.head]
    cases A <;> rfl
  · exact hA.congr fun x hx => hptr x (hne x (List.mem_append_left _ hx))
  · exact hB.congr fun x hx => hptr x (hne x (List.mem_append_right _ (List.mem_cons_of_mem q hx)))
  · rw [hsize base hzero, hi.zero]
  · intro b hb hbase
    rw [hsize b (hne b hb)]
    exact hi.pos b (hsub.subset hb) hbase
  · intro a ha
    rw [hsize a (hneLive a ha)]
    exact hi.posLive a (List.mem_cons_of_mem bp ha)
  · exact gap_congr (hi.order.sublist hsub) fun a ha => hsize a (hne a ha)
  · intro a ha
    have hmem : a ∈ A ++ q :: B := by
      rcases List.mem_append.mp ha with ha | ha
      · exact List.mem_append_left _ ha
      · exact List.mem_append_right _ (List.mem_singleton.mp ha ▸ List.mem_cons_self)
    have hlt : a < bp := by
      rcases List.mem_append.mp ha with ha | ha
      · exact hbt.left a ha
      · exact List.mem_singleton.mp ha ▸ hbt.here
    have hap := hi.cross bp List.mem_cons_self a (hsub.subset hmem)
    rw [hsize a (hne a hmem)]
    rw [Apart] at hap
    omega
  · exact apart_pairwise_congr (List.pairwise_cons.mp hi.apart).2 fun a ha => hsize a (hneLive a ha)
  · intro a ha b hb
    exact apart_congr (hi.cross a (List.mem_cons_of_mem bp ha) b (hsub.subset hb)) (hsize a (hneLive a ha))
      (hsize b (hne b hb))
  · intro b hb
    rcases List.mem_cons.mp hb with rfl | hb
    · exact hinside
    · rcases List.mem_append.mp hb with hb | hb
      · exact inside_congr (hi.inside b (List.mem_append_left _ (hsub.subset hb))) hcalls (hsize b (hne b hb))
      · exact inside_congr (hi.inside b (List.mem_append_right _ (List.mem_cons_of_mem bp hb))) hcalls
          (hsize b (hneLive b hb))
  · have htot := hi.total
    have hcongr : sizes h' (A ++ q :: B ++ live) = sizes h (A ++ q :: B ++ live) := by
      refine sizes_congr fun a ha => ?_
      rcases List.mem_append.mp ha with ha | ha
      · exact hsize a (hne a ha)
      · exact hsize a (hneLive a ha)
    rw [sizes_cons, hcongr, units_congr hcalls, ← htot]
    simp only [sizes_append, sizes_cons] at htotal ⊢
    omega

theorem joinNext_spec (hi : Inv base h (A ++ q :: B) (bp :: live)) (hbt : Between bp A q B) (hu : h.units < 2 ^ 32) :
    ∃ B', Loose base (h.joinNext bp q) A q B' bp live ∧ B'.length ≤ B.length ∧ h.size bp ≤ (h.joinNext bp q).size bp ∧
      (∀ x, x ≠ bp → (h.joinNext bp q).size x = h.size x) ∧ (h.joinNext bp q).calls = h.calls := by
  have hpos := hi.posLive bp List.mem_cons_self
  have hnext : h.ptr q = B.headD base := (seg_append.mp hi.ring).2.1
  have hend : ∀ b ∈ B, bp + 16 * h.size bp ≤ b := by
    intro b hb
    have hap := hi.cross bp List.mem_cons_self b (List.mem_append_right A (List.mem_cons_of_mem q hb))
    have hlt := hbt.right b hb
    rw [Apart] at hap
    omega
  by_cases hmerge : bp + 16 * h.size bp = h.ptr q
  · -- the block after `q` is merged into `bp`
    obtain ⟨r, B', rfl⟩ : ∃ r B', B = r :: B' := by
      cases B with
      | nil =>
        rw [hnext, List.headD_nil] at hmerge
        omega
      | cons r B' => exact ⟨r, B', rfl⟩
    rw [List.headD_cons] at hnext
    have hr : r ∈ A ++ q :: r :: B' := by simp
    have hle : h.size bp + h.size r ≤ h.units := by
      rw [← hi.total]
      simp only [sizes_append, sizes_cons]
      omega
    have hjoin : h.joinNext bp q = { h with
        size := update h.size bp (h.size bp + h.size r), ptr := update h.ptr bp (h.ptr r) } := by
      refine (if_pos hmerge).trans ?_
      rw [hnext, Nat.mod_eq_of_lt (by omega)]
    rw [hjoin]
    refine ⟨B', ?_, Nat.le_succ _, ?_, ?_, rfl⟩
    · refine hi.loosen (D := [r]) hbt (fun x hx => update_of_ne hx ..) (fun x hx => update_of_ne hx ..) rfl
        ?_ ?_ ?_ ?_ ?_ ?_
      · show update h.ptr bp (h.ptr r) bp = _
        rw [update_self]
        exact (seg_append.mp hi.ring).2.2.1
      · show _ ≤ update h.size bp _ bp
        rw [update_self]
        exact Nat.le_add_right ..
      · intro b hb
        have hgap : Gap h.size r b :=
        (List.pairwise_cons.mp (List.pairwise_cons.mp (List.pairwise_append.mp hi.order).2.1).2).1 b hb
        show bp + 16 * update h.size bp _ bp < b
        rw [update_self]
        rw [Gap] at hgap
        omega
      · intro a ha
        have hne : a ≠ bp := fun hc => hi.fresh.2 (hc ▸ ha)
        have ha' := List.mem_cons_of_mem bp ha
        have hap := (List.pairwise_cons.mp hi.apart).1 a ha
        have hapr := hi.cross a ha' r hr
        have hposa := (hi.posLive a ha').1
        show a + 16 * update h.size bp _ a ≤ bp ∨ bp + 16 * update h.size bp _ bp ≤ a
        rw [update_self, update_of_ne hne]
        rw [Apart] at hap hapr
        omega
      · intro x hx hx'
        change x < bp + 16 * update h.size bp _ bp at hx'
        rw [update_self] at hx'
        by_cases hxr : x < r
        · exact hi.inside bp (by simp) x hx (by omega)
        · exact hi.inside r (List.mem_append_left _ hr) x (by omega) (by omega)
      · show update h.size bp _ bp + _ = _
        rw [update_self, List.singleton_append, sizes_cons]
        omega
    · show _ ≤ update h.size bp _ bp
      rw [update_self]
      exact Nat.le_add_right ..
    · exact fun x hx => update_of_ne hx ..
  · have hjoin : h.joinNext bp q = { h with ptr := update h.ptr bp (h.ptr q) } := if_neg hmerge
    rw [hjoin]
    refine ⟨B, ?_, Nat.le_refl _, Nat.le_refl _, fun _ _ => rfl, rfl⟩
    refine hi.loosen (D := []) hbt (fun _ _ => rfl) (fun x hx => update_of_ne hx ..) rfl ?_ (Nat.le_refl _) ?_ ?_ ?_ rfl
    · show update h.ptr bp (h.ptr q) bp = _
      rw [update_self, hnext]
    · intro b hb
      have hle := hend b hb
      cases B with
      | nil => exact absurd hb List.not_mem_nil
      | cons r B' =>
        rw [hnext, List.headD_cons] at hmerge
        have hler := hend r List.mem_cons_self
        rcases List.mem_cons.mp hb with rfl | hb
        · exact Nat.lt_of_le_of_ne hle hmerge
        · have hgap : Gap h.size r b :=
            (List.pairwise_cons.mp (List.pairwise_cons.mp (List.pairwise_append.mp hi.order).2.1).2).1 b hb
          rw [Gap] at hgap
          show bp + 16 * h.size bp < b
          omega
    · exact fun a ha => ((List.pairwise_cons.mp hi.apart).1 a ha).symm
    · exact hi.inside bp (by simp)

/-- The block is merged into the one before it, or linked after it. -/
theorem joinPrev_spec (hl : Loose base h A q B bp live) (hu : h.units < 2 ^ 32) :
    ∃ R, Inv base { h.joinPrev bp q with freep := q } R live ∧ R.length ≤ (A ++ q :: B).length + 1 ∧
      (∃ b ∈ R, h.size bp ≤ (h.joinPrev bp q).size b) ∧
      (∀ a ∈ live, (h.joinPrev bp q).size a = h.size a) ∧ (h.joinPrev bp q).calls = h.calls := by
  have hqlt : q < bp := by
    have hle := hl.before q (by simp)
    have hpos := hl.posHere
    by_cases hq : q = base
    · omega
    · have hposq := (hl.pos q (by simp) hq).1
      omega
  have hqA : q ∉ A := by
    intro hc
    have hgap : Gap h.size q q := (List.pairwise_append.mp hl.order).2.2 q hc q List.mem_cons_self
    rw [Gap] at hgap
    omega
  have hqB : q ∉ B := by
    intro hc
    have hgap : Gap h.size q q := (List.pairwise_cons.mp (List.pairwise_append.mp hl.order).2.1).1 q hc
    rw [Gap] at hgap
    omega
  have hqlive : q ≠ base → q ∉ live := by
    intro hq hc
    have hap := hl.cross q hc q (by simp)
    have hposq := (hl.pos q (by simp) hq).1
    rw [Apart] at hap
    omega
  by_cases hmerge : q + 16 * h.size q = bp
  · have hq : q ≠ base := by
      rintro rfl
      rw [hl.zero] at hmerge
      have hpos := hl.posHere
      omega
    have hle : h.size q + h.size bp ≤ h.units := by
      rw [← hl.total]
      simp only [sizes_append, sizes_cons]
      omega
    have hjoin : h.joinPrev bp q = { h with
        size := update h.size q (h.size q + h.size bp), ptr := update h.ptr q (h.ptr bp) } := by
      refine (if_pos hmerge).trans ?_
      rw [Nat.mod_eq_of_lt (by omega)]
    have hsize : ∀ x, x ≠ q → update h.size q (h.size q + h.size bp) x = h.size x := fun x hx => update_of_ne hx ..
    have hself : update h.size q (h.size q + h.size bp) q = h.size q + h.size bp := update_self ..
    have hneA : ∀ a ∈ A, a ≠ q := fun a ha hc => hqA (hc ▸ ha)
    have hneB : ∀ b ∈ B, b ≠ q := fun b hb hc => hqB (hc ▸ hb)
    have hneLive : ∀ a ∈ live, a ≠ q := fun a ha hc => hqlive hq (hc ▸ ha)
    rw [hjoin]
    refine ⟨A ++ q :: B, ⟨?_, ?_, by simp, ?_, ?_, ?_, ?_, ?_, ?_, ?_, ?_⟩, Nat.le_succ _, ⟨q, by simp, ?_⟩,
      fun a ha => hsize a (hneLive a ha), rfl⟩
    · rw [← hl.head]
      cases A <;> rfl
    · refine seg_append.mpr ⟨hl.left.update hqA, ?_, hl.right.update hqB⟩
      show update h.ptr q (h.ptr bp) q = _
      rw [update_self, hl.link]
    · show update h.size q _ base = 0
      rw [hsize base (Ne.symm hq), hl.zero]
    · intro b hb hbase
      show 0 < update h.size q _ b ∧ _
      by_cases hbq : b = q
      · have hpos := hl.posHere
        have hposq := hl.pos b hb hbase
        rw [hbq, hself]
        rw [hbq] at hposq
        omega
      · rw [hsize b hbq]
        exact hl.pos b hb hbase
    · intro a ha
      show 0 < update h.size q _ a ∧ _
      rw [hsize a (hneLive a ha)]
      exact hl.posLive a ha
    · obtain ⟨hA, hqB', hcross⟩ := List.pairwise_append.mp hl.order
      obtain ⟨hq', hB⟩ := List.pairwise_cons.mp hqB'
      refine List.pairwise_append.mpr ⟨gap_congr hA fun a ha => hsize a (hneA a ha),
        List.pairwise_cons.mpr ⟨fun b hb => ?_, gap_congr hB fun b hb => hsize b (hneB b hb)⟩, fun a ha b hb => ?_⟩
      · have hgap := hl.after b hb
        show q + 16 * update h.size q _ q < b
        rw [Gap] at hgap
        rw [hself]
        omega
      · show a + 16 * update h.size q _ a < b
        rw [hsize a (hneA a ha)]
        exact hcross a ha b hb
    · exact apart_pairwise_congr hl.apart fun a ha => hsize a (hneLive a ha)
    · intro a ha b hb
      show a + 16 * update h.size q _ a ≤ b ∨ b + 16 * update h.size q _ b ≤ a
      rw [hsize a (hneLive a ha)]
      by_cases hbq : b = q
      · have hapq := hl.cross a ha q (by simp)
        have hap := hl.crossHere a ha
        have hpos := (hl.posLive a ha).1
        rw [hbq, hself]
        rw [Apart] at hap hapq
        omega
      · rw [hsize b hbq]
        exact hl.cross a ha b hb
    · intro b hb
      by_cases hbq : b = q
      · intro x hx hx'
        change x < b + 16 * update h.size q _ b at hx'
        rw [hbq, hself] at hx'
        by_cases hxb : x < bp
        · exact hl.inside q (by simp) x (by omega) (by omega)
        · exact hl.inside bp (by simp) x (by omega) (by omega)
      · exact inside_congr (hl.inside b (List.mem_cons_of_mem bp hb)) rfl (hsize b hbq)
    · have htot := hl.total
      have hA : sizes { h with size := update h.size q (h.size q + h.size bp) } A = sizes h A :=
        sizes_congr fun a ha => hsize a (hneA a ha)
      have hB : sizes { h with size := update h.size q (h.size q + h.size bp) } B = sizes h B :=
        sizes_congr fun a ha => hsize a (hneB a ha)
      have hlive : sizes { h with size := update h.size q (h.size q + h.size bp) } live = sizes h live :=
        sizes_congr fun a ha => hsize a (hneLive a ha)
      have hall : sizes { h with size := update h.size q (h.size q + h.size bp) } (A ++ q :: B ++ live) = h.units := by
        rw [← htot]
        simp only [sizes_append, sizes_cons, hA, hB, hlive, hself]
        omega
      exact hall
    · show _ ≤ update h.size q _ q
      rw [hself]
      exact Nat.le_add_left ..
  · have hjoin : h.joinPrev bp q = { h with ptr := update h.ptr q bp } := if_neg hmerge
    have hgapq : Gap h.size q bp := Nat.lt_of_le_of_ne (hl.before q (by simp)) hmerge
    have hbpB : bp ∉ B := by
      intro hc
      have hgap := hl.after bp hc
      rw [Gap] at hgap
      omega
    rw [hjoin]
    refine ⟨A ++ q :: bp :: B, ⟨?_, ?_, by simp, hl.zero, ?_, hl.posLive, ?_, hl.apart, ?_, ?_, ?_⟩, by simp; omega,
      ⟨bp, by simp, Nat.le_refl _⟩, fun _ _ => rfl, rfl⟩
    · rw [← hl.head]
      cases A <;> rfl
    · refine seg_append.mpr ⟨hl.left.update hqA, ?_, ?_, hl.right.update hqB⟩
      · show update h.ptr q bp q = _
        rw [update_self, List.headD_cons]
      · show update h.ptr q bp bp = _
        rw [update_of_ne (Nat.ne_of_gt hqlt), hl.link]
    · intro b hb hbase
      rcases List.mem_append.mp hb with hb | hb
      · exact hl.pos b (List.mem_append_left _ hb) hbase
      · rcases List.mem_cons.mp hb with rfl | hb
        · exact hl.pos b (by simp) hbase
        · rcases List.mem_cons.mp hb with rfl | hb
          · exact hl.posHere
          · exact hl.pos b (by simp [hb]) hbase
    · obtain ⟨hA, hqB', hcross⟩ := List.pairwise_append.mp hl.order
      obtain ⟨hq', hB⟩ := List.pairwise_cons.mp hqB'
      refine List.pairwise_append.mpr ⟨hA, List.pairwise_cons.mpr ⟨fun b hb => ?_,
        List.pairwise_cons.mpr ⟨hl.after, hB⟩⟩, fun a ha b hb => ?_⟩
      · rcases List.mem_cons.mp hb with rfl | hb
        · exact hgapq
        · exact hq' b hb
      · rcases List.mem_cons.mp hb with rfl | hb
        · exact hcross a ha b List.mem_cons_self
        · rcases List.mem_cons.mp hb with rfl | hb
          · have hgap := hcross a ha q List.mem_cons_self
            rw [Gap] at hgap
            show a + 16 * h.size a < b
            omega
          · exact hcross a ha b (List.mem_cons_of_mem q hb)
    · intro a ha b hb
      rcases List.mem_append.mp hb with hb | hb
      · exact hl.cross a ha b (List.mem_append_left _ hb)
      · rcases List.mem_cons.mp hb with rfl | hb
        · exact hl.cross a ha b (by simp)
        · rcases List.mem_cons.mp hb with rfl | hb
          · exact hl.crossHere a ha
          · exact hl.cross a ha b (by simp [hb])
    · intro b hb
      have hmem : b ∈ bp :: (A ++ q :: B ++ live) := by
        simp only [List.mem_append, List.mem_cons] at hb ⊢
        tauto
      exact hl.inside b hmem
    · have htot := hl.total
      have hall : sizes h (A ++ q :: bp :: B ++ live) = h.units := by
        rw [← htot]
        simp only [sizes_append, sizes_cons]
        omega
      exact hall

/-- **`free()`** of a block in use ends, and the block is free. -/
theorem free_spec (hi : Inv base h R (bp :: live)) (hu : h.units < 2 ^ 32) (hfuel : R.length < fuel) :
    ∃ h' R', h.free fuel (bp + 16) = some h' ∧ Inv base h' R' live ∧ R'.length ≤ R.length + 1 ∧
      (∃ b ∈ R', h.size bp ≤ h'.size b) ∧
      (∀ a ∈ live, h'.size a = h.size a) ∧ h'.calls = h.calls := by
  have hpos := (hi.posLive bp List.mem_cons_self).2
  obtain ⟨A, q, B, rfl, hbt, hplace⟩ := place_spec hi (by omega) hi.fresh.1 hfuel
  obtain ⟨B', hloose, hlen, hgrow, hsize, hcalls⟩ := joinNext_spec hi hbt hu
  have hu' : (h.joinNext bp q).units < 2 ^ 32 := by rwa [units_congr hcalls]
  obtain ⟨R', hinv, hlen', ⟨b, hb, hbig⟩, hsize', hcalls'⟩ := joinPrev_spec hloose hu'
  refine ⟨_, R', ?_, hinv, ?_, ⟨b, hb, hgrow.trans hbig⟩, fun a ha => ?_, hcalls'.trans hcalls⟩
  · have hsub : bp + 16 - Heap.sizeofHeader = bp := Nat.add_sub_cancel ..
    rw [Heap.free, hsub, hplace, Option.map_some]
  · simp only [List.length_append, List.length_cons] at hlen' ⊢
    omega
  · have hne : a ≠ bp := fun hc => hi.fresh.2 (hc ▸ ha)
    exact (hsize' a ha).trans (hsize a hne)

/-! ## The blocks that `malloc` takes -/

/-- What `take` does to the block `p` after `q`: the block `bp` is in use. -/
structure Taken (base : Nat) (h h' : Heap) (live : List Nat) (nunits bp : Nat) : Prop where
  inv : ∃ R, Inv base h' R (bp :: live)
  size : h'.size bp = nunits
  others : ∀ a ∈ live, h'.size a = h.size a
  calls : h'.calls = h.calls

/-- The block after `q` in the ring. -/
theorem Inv.split (hi : Inv base h R live) (hq : q ∈ R) (hp : h.ptr q ≠ base) : ∃ A B, R = A ++ q :: h.ptr q :: B := by
  obtain ⟨A, B, rfl⟩ := List.append_of_mem hq
  have hnext : h.ptr q = B.headD base := (seg_append.mp hi.ring).2.1
  cases B with
  | nil => exact absurd hnext hp
  | cons r B =>
    rw [List.headD_cons] at hnext
    exact ⟨A, B, by rw [hnext]⟩

/-- The whole block is taken. -/
theorem take_all (hi : Inv base h (A ++ q :: p :: B) live) (hp : p ≠ base) :
    Taken base h { h with ptr := update h.ptr q (h.ptr p), freep := q } live (h.size p) p := by
  have hsub : (A ++ q :: B).Sublist (A ++ q :: p :: B) :=
    (List.Sublist.refl A).append (List.Sublist.cons_cons q (List.sublist_cons_self p B))
  obtain ⟨hA, -, -, hB⟩ := seg_append.mp hi.ring
  have hlink : h.ptr p = B.headD base := (seg_append.mp hi.ring).2.2.1
  have hpmem : p ∈ A ++ q :: p :: B := by simp
  obtain ⟨hoA, hoqB, hcross⟩ := List.pairwise_append.mp hi.order
  obtain ⟨hoq, hopB⟩ := List.pairwise_cons.mp hoqB
  have hpos := hi.pos p hpmem hp
  have hgap : ∀ b ∈ A ++ q :: B, Apart h.size p b := by
    intro b hb
    rcases List.mem_append.mp hb with hb | hb
    · exact .inr (Nat.le_of_lt (hcross b hb p (by simp)))
    · rcases List.mem_cons.mp hb with rfl | hb
      · exact .inr (Nat.le_of_lt (hoq p List.mem_cons_self))
      · exact .inl (Nat.le_of_lt ((List.pairwise_cons.mp hopB).1 b hb))
  have hself : ∀ b ∈ A ++ q :: B, Gap h.size b b → False := by
    intro b _ hgap
    rw [Gap] at hgap
    omega
  have hqA : q ∉ A := fun hc => hself q (by simp) (hcross q hc q List.mem_cons_self)
  have hqB : q ∉ B := fun hc => hself q (by simp) (hoq q (List.mem_cons_of_mem p hc))
  refine ⟨⟨A ++ q :: B, ?_, ?_,
    by simp, hi.zero, fun b hb => hi.pos b (hsub.subset hb), ?_, hi.order.sublist hsub, ?_, ?_, ?_, ?_⟩, rfl,
    fun _ _ => rfl, rfl⟩
  · rw [← hi.head]
    cases A <;> rfl
  · refine seg_append.mpr ⟨hA.update hqA, ?_, hB.update hqB⟩
    show update h.ptr q (h.ptr p) q = _
    rw [update_self, hlink]
  · intro a ha
    rcases List.mem_cons.mp ha with rfl | ha
    · exact hpos
    · exact hi.posLive a ha
  · exact List.pairwise_cons.mpr ⟨fun a ha => (hi.cross a ha p hpmem).symm, hi.apart⟩
  · intro a ha b hb
    rcases List.mem_cons.mp ha with rfl | ha
    · exact hgap b hb
    · exact hi.cross a ha b (hsub.subset hb)
  · intro b hb
    refine hi.inside b ?_
    simp only [List.mem_append, List.mem_cons] at hb ⊢
    tauto
  · have htot := hi.total
    have hall : sizes h (A ++ q :: B ++ p :: live) = h.units := by
      rw [← htot]
      simp only [sizes_append, sizes_cons]
      omega
    exact hall

/-- The tail of the block is taken. -/
theorem take_tail (hi : Inv base h R live) (hq : q ∈ R) (hp : p ∈ R) (hne : p ≠ base) (hn : 0 < nunits)
    (hlt : nunits < h.size p) :
    Taken base h { h with
      size := update (update h.size p (h.size p - nunits)) (p + 16 * (h.size p - nunits)) nunits, freep := q }
      live nunits (p + 16 * (h.size p - nunits)) := by
  obtain ⟨rest, hrest⟩ : ∃ rest, rest = h.size p - nunits := ⟨_, rfl⟩
  obtain ⟨bp, hbp⟩ : ∃ bp, bp = p + 16 * rest := ⟨_, rfl⟩
  obtain ⟨size, hs⟩ : ∃ size, size = update (update h.size p rest) bp nunits := ⟨_, rfl⟩
  rw [← hrest, ← hbp, ← hs]
  have hpos := hi.pos p hp hne
  have hother : ∀ b ∈ R, b ≠ p → Gap h.size p b ∨ Gap h.size b p := by
    intro b hb hbp'
    obtain ⟨A, B, rfl⟩ := List.append_of_mem hp
    rcases List.mem_append.mp hb with hb | hb
    · exact .inr ((List.pairwise_append.mp hi.order).2.2 b hb p List.mem_cons_self)
    · rcases List.mem_cons.mp hb with rfl | hb
      · exact absurd rfl hbp'
      · exact .inl ((List.pairwise_cons.mp (List.pairwise_append.mp hi.order).2.1).1 b hb)
  have hbpR : ∀ b ∈ R, b ≠ bp := by
    intro b hb hc
    by_cases hbp' : b = p
    · omega
    · rcases hother b hb hbp' with hgap | hgap
      · rw [Gap] at hgap
        omega
      · rw [Gap] at hgap
        omega
  have hbplive : ∀ a ∈ live, a ≠ bp ∧ a ≠ p := by
    intro a ha
    have hap := hi.cross a ha p hp
    have hposa := (hi.posLive a ha).1
    rw [Apart] at hap
    omega
  have hsize : ∀ x, x ≠ p → x ≠ bp → size x = h.size x := fun x hx hx' => by
    rw [hs, update_of_ne hx', update_of_ne hx]
  have hsizep : size p = rest := by rw [hs, update_of_ne (by omega), update_self]
  have hsizebp : size bp = nunits := by rw [hs, update_self]
  have hle : ∀ b ∈ R, size b ≤ h.size b := by
    intro b hb
    by_cases hbp' : b = p
    · rw [hbp', hsizep]
      omega
    · rw [hsize b hbp' (hbpR b hb)]
  refine ⟨⟨R, hi.head, hi.ring, hq, ?_, ?_, ?_, ?_, ?_, ?_, ?_, ?_⟩, hsizebp, fun a ha =>
    hsize a (hbplive a ha).2 (hbplive a ha).1, rfl⟩
  · show size base = 0
    rw [hsize base (Ne.symm hne) (by omega), hi.zero]
  · intro b hb hbase
    show 0 < size b ∧ _
    by_cases hbp' : b = p
    · rw [hbp', hsizep]
      omega
    · rw [hsize b hbp' (hbpR b hb)]
      exact hi.pos b hb hbase
  · intro a ha
    show 0 < size a ∧ _
    rcases List.mem_cons.mp ha with rfl | ha
    · rw [hsizebp]
      omega
    · rw [hsize a (hbplive a ha).2 (hbplive a ha).1]
      exact hi.posLive a ha
  · refine hi.order.imp_of_mem fun {a b} ha _ hgap => ?_
    have hlea := hle a ha
    rw [Gap] at hgap
    show a + 16 * size a < b
    omega
  · refine List.pairwise_cons.mpr ⟨fun a ha => ?_, apart_pairwise_congr hi.apart fun a ha =>
      hsize a (hbplive a ha).2 (hbplive a ha).1⟩
    have hap := hi.cross a ha p hp
    have hposa := (hi.posLive a ha).1
    show bp + 16 * size bp ≤ a ∨ a + 16 * size a ≤ bp
    rw [hsizebp, hsize a (hbplive a ha).2 (hbplive a ha).1]
    rw [Apart] at hap
    omega
  · intro a ha b hb
    show a + 16 * size a ≤ b ∨ b + 16 * size b ≤ a
    have hleb := hle b hb
    rcases List.mem_cons.mp ha with rfl | ha
    · rw [hsizebp]
      by_cases hbp' : b = p
      · rw [hbp', hsizep]
        omega
      · have hgap := hother b hb hbp'
        rw [Gap, Gap] at hgap
        omega
    · have hap := hi.cross a ha b hb
      rw [hsize a (hbplive a ha).2 (hbplive a ha).1]
      rw [Apart] at hap
      omega
  · intro b hb x hx hx'
    change x < b + 16 * size b at hx'
    rcases List.mem_append.mp hb with hb | hb
    · have hleb := hle b hb
      exact hi.inside b (List.mem_append_left _ hb) x hx (by omega)
    · rcases List.mem_cons.mp hb with rfl | hb
      · rw [hsizebp] at hx'
        exact hi.inside p (List.mem_append_left _ hp) x (by omega) (by omega)
      · rw [hsize b (hbplive b hb).2 (hbplive b hb).1] at hx'
        exact hi.inside b (List.mem_append_right _ hb) x hx hx'
  · obtain ⟨A, B, hAB⟩ := List.append_of_mem hp
    have hself : ∀ b, Gap h.size b b → False := by
      intro b hgap
      rw [Gap] at hgap
      omega
    have horder := hi.order
    rw [hAB] at horder
    have hpA : ∀ a ∈ A, a ≠ p := by
      rintro a ha rfl
      exact hself a ((List.pairwise_append.mp horder).2.2 a ha a List.mem_cons_self)
    have hpB : ∀ b ∈ B, b ≠ p := by
      rintro b hb rfl
      exact hself b ((List.pairwise_cons.mp (List.pairwise_append.mp horder).2.1).1 b hb)
    obtain ⟨h', hh'⟩ : ∃ h' : Heap, h' = { h with size := size, freep := q } := ⟨_, rfl⟩
    have hs' : h'.size = size := by rw [hh']
    have hA : sizes h' A = sizes h A := sizes_congr fun a ha => by
      rw [hs', hsize a (hpA a ha) (hbpR a (hAB ▸ List.mem_append_left _ ha))]
    have hB : sizes h' B = sizes h B := sizes_congr fun b hb => by
      rw [hs', hsize b (hpB b hb) (hbpR b (hAB ▸ List.mem_append_right _ (List.mem_cons_of_mem p hb)))]
    have hlive : sizes h' live = sizes h live := sizes_congr fun a ha => by
      rw [hs', hsize a (hbplive a ha).2 (hbplive a ha).1]
    have htot := hi.total
    rw [hAB] at htot ⊢
    rw [← hh', show h'.units = h.units by rw [hh']; rfl, ← htot]
    simp only [sizes_append, sizes_cons, hA, hB, hlive]
    rw [hs', hsizep, hsizebp]
    omega

/-- `take` of a large enough block after `q`. -/
theorem take_spec (hi : Inv base h R live) (hq : q ∈ R) (hn : 0 < nunits) (hle : nunits ≤ h.size (h.ptr q)) :
    ∃ bp h', h.take nunits q (h.ptr q) = (bp + 16, h') ∧ Taken base h h' live nunits bp := by
  have hne : h.ptr q ≠ base := by
    intro hc
    rw [hc, hi.zero] at hle
    omega
  obtain ⟨A, B, rfl⟩ := hi.split hq hne
  by_cases heq : h.size (h.ptr q) = nunits
  · refine ⟨h.ptr q, _, if_pos heq, ?_⟩
    rw [← heq]
    exact take_all hi hne
  · exact ⟨_, _, if_neg heq, take_tail hi hq (by simp) hne hn (Nat.lt_of_le_of_ne hle (Ne.symm heq))⟩

/-! ## The search of `malloc` -/

/-- The search goes along the ring up to `freep`: it takes a block, or all blocks are too small. -/
theorem search_ring {c : Nat} {M : List Nat} (nunits k : Nat) (answers : List (Option Nat)) (hc : c ∈ R)
    (hM : ∀ m ∈ M, m ∈ R ∧ m ≠ h.freep) (hseg : Seg h.ptr (c :: M) h.freep) :
    (∃ q ∈ R, nunits ≤ h.size (h.ptr q) ∧
      Heap.search nunits (M.length + 1 + k) answers c (h.ptr c) h = some (h.take nunits q (h.ptr q))) ∨
    ((∀ m ∈ M ++ [h.freep], h.size m < nunits) ∧
      ∃ c', Heap.search nunits (M.length + 1 + k) answers c (h.ptr c) h =
        Heap.search nunits (k + 1) answers c' h.freep h) := by
  induction M generalizing c with
  | nil =>
    have hnext : h.ptr c = h.freep := hseg.1
    rw [List.length_nil, Nat.zero_add, Nat.add_comm 1 k]
    by_cases hle : nunits ≤ h.size (h.ptr c)
    · refine .inl ⟨c, hc, hle, ?_⟩
      rw [Heap.search_fits hle]
    · refine .inr ⟨fun m hm => ?_, c, by rw [hnext]⟩
      rw [List.nil_append, List.mem_singleton] at hm
      rw [hm, ← hnext]
      exact Nat.lt_of_not_le hle
  | cons m M ih =>
    have hnext : h.ptr c = m := hseg.1
    rw [List.length_cons, Nat.add_right_comm M.length 1 1, Nat.add_right_comm _ 1 k]
    by_cases hle : nunits ≤ h.size (h.ptr c)
    · refine .inl ⟨c, hc, hle, ?_⟩
      rw [Heap.search_fits hle]
    · obtain ⟨hm, hfreep⟩ := hM m List.mem_cons_self
      rw [Heap.search_next hle (hnext ▸ hfreep), hnext]
      rcases ih hm (fun x hx => hM x (List.mem_cons_of_mem m hx)) hseg.2 with hfound | ⟨hsmall, hend⟩
      · exact .inl hfound
      · refine .inr ⟨fun x hx => ?_, hend⟩
        rcases List.mem_cons.mp hx with rfl | hx
        · rw [← hnext]
          exact Nat.lt_of_not_le hle
        · exact hsmall x hx

/-- The ring, read from `freep` on. -/
theorem Inv.round (hi : Inv base h R live) :
    ∃ M, Seg h.ptr (h.freep :: M) h.freep ∧ h.freep ∉ M ∧ (h.freep :: M).Perm R := by
  obtain ⟨A, B, hR⟩ := List.append_of_mem hi.freep
  have hring := hi.ring
  have hhead := hi.head
  rw [hR] at hring hhead
  have hz : (A ++ [h.freep]).headD base = base := by
    cases A with
    | nil => exact Option.some.inj hhead
    | cons a A => exact Option.some.inj hhead
  have hperm : (h.freep :: (B ++ A)).Perm R := by
    rw [hR]
    show (h.freep :: B ++ A).Perm (A ++ h.freep :: B)
    exact List.perm_append_comm
  have hnodup : R.Nodup := hi.sorted.imp fun hlt => Nat.ne_of_lt hlt
  exact ⟨B ++ A, hring.rotate hz, (List.nodup_cons.mp (hperm.nodup_iff.mpr hnodup)).1, hperm⟩

/-- A block of the free list has `nunits`. -/
def Heap.HasFree (h : Heap) (nunits : Nat) : Prop := ∃ b, Leads h.ptr h.freep b ∧ nunits ≤ h.size b

theorem Inv.hasFree_iff (hi : Inv base h R live) : h.HasFree nunits ↔ ∃ b ∈ R, nunits ≤ h.size b := by
  obtain ⟨M, hseg, -, hperm⟩ := hi.round
  refine exists_congr fun b => and_congr_left fun _ => ?_
  rw [hseg.leads_iff, hperm.mem_iff]

/-- A turn around the whole ring. -/
theorem search_all (k : Nat) (answers : List (Option Nat)) (hi : Inv base h R live) (hn : 0 < nunits) :
    (h.HasFree nunits ∧ ∃ bp h', Taken base h h' live nunits bp ∧
      Heap.search nunits (R.length + k) answers h.freep (h.ptr h.freep) h = some (bp + 16, h')) ∨
    (¬ h.HasFree nunits ∧ h.size h.freep < nunits ∧
      ∃ c', Heap.search nunits (R.length + k) answers h.freep (h.ptr h.freep) h =
        Heap.search nunits (k + 1) answers c' h.freep h) := by
  obtain ⟨M, hseg, hfreep, hperm⟩ := hi.round
  have hM : ∀ m ∈ M, m ∈ R ∧ m ≠ h.freep := fun m hm =>
    ⟨hperm.mem_iff.mp (List.mem_cons_of_mem _ hm), fun hc => hfreep (hc ▸ hm)⟩
  rw [← hperm.length_eq, List.length_cons, hi.hasFree_iff]
  rcases search_ring nunits k answers hi.freep hM hseg with ⟨q, hq, hle, hfound⟩ | ⟨hsmall, hend⟩
  · obtain ⟨bp, h', htake, htaken⟩ := take_spec hi hq hn hle
    refine .inl ⟨⟨h.ptr q, ?_, hle⟩, bp, h', htaken, by rw [hfound, htake]⟩
    rcases hi.ring.next_mem hq with hmem | hbase
    · exact hmem
    · rw [hbase]
      exact List.mem_of_mem_head? hi.head
  · refine .inr ⟨fun ⟨b, hb, hle⟩ => ?_, hsmall _ (by simp), hend⟩
    have hlt := hsmall b (by simpa [or_comm] using hperm.mem_iff.mpr hb)
    omega

/-! ## New memory -/

/-- What `sbrk()` returns: memory above the static header and above all it has returned before. -/
def Heap.Fresh (h : Heap) (base a : Nat) : Prop :=
  base + 16 ≤ a ∧ ∀ c ∈ h.calls, ∀ a', c.answer = some a' → (a' : Int) + c.arg ≤ a

/-- The heap with a new block of `nu` units at `a`, not yet in the free list. -/
def Heap.granted (h : Heap) (nu a : Nat) : Heap :=
  { h with calls := { arg := nu * 16, units := nu, answer := some a } :: h.calls, size := update h.size a nu }

theorem granted_units : (h.granted nu a).units = nu + h.units := by
  rw [Heap.units, Heap.granted, List.map_cons, List.sum_cons, Option.isSome_some, if_pos rfl, Heap.units]

theorem Inv.grant (hi : Inv base h R live) (hfresh : h.Fresh base a) (hnu : 0 < nu) :
    Inv base (h.granted nu a) R (a :: live) := by
  -- the static header is the only block without units
  have hpos : ∀ b ∈ R ++ live, b = base ∨ 0 < h.size b := by
    intro b hb
    by_cases hc : b = base
    · exact .inl hc
    · rcases List.mem_append.mp hb with hb | hb
      · exact .inr (hi.pos b hb hc).1
      · exact .inr (hi.posLive b hb).1
  have hle := hfresh.1
  have hend : ∀ b ∈ R ++ live, b + 16 * h.size b ≤ a := by
    intro b hb
    by_cases h0 : h.size b = 0
    · have hbase := hpos b hb
      omega
    · obtain ⟨c, hc, a', ha', -, hlt⟩ := hi.inside b hb (b + 16 * h.size b - 1) (by omega) (by omega)
      have hle := hfresh.2 c hc a' ha'
      omega
  have hlt : ∀ b ∈ R ++ live, b < a := by
    intro b hb
    have hbase := hpos b hb
    have hle' := hend b hb
    omega
  have hsize : ∀ b ∈ R ++ live, (h.granted nu a).size b = h.size b :=
    fun b hb => update_of_ne (Nat.ne_of_lt (hlt b hb)) ..
  have hself : (h.granted nu a).size a = nu := update_self ..
  have howned : ∀ x, h.Owned x → (h.granted nu a).Owned x := by
    rintro x ⟨c, hc, hx⟩
    exact ⟨c, List.mem_cons_of_mem _ hc, hx⟩
  have hsizeR : ∀ b ∈ R, (h.granted nu a).size b = h.size b := fun b hb => hsize b (List.mem_append_left _ hb)
  have hsizeLive : ∀ b ∈ live, (h.granted nu a).size b = h.size b := fun b hb => hsize b (List.mem_append_right _ hb)
  refine ⟨hi.head, hi.ring, hi.freep, ?_, ?_, ?_, gap_congr hi.order hsizeR, ?_, ?_, ?_, ?_⟩
  · rw [hsizeR base (List.mem_of_mem_head? hi.head), hi.zero]
  · intro b hb hbase
    rw [hsizeR b hb]
    exact hi.pos b hb hbase
  · intro b hb
    rcases List.mem_cons.mp hb with rfl | hb
    · rw [hself]
      exact ⟨hnu, hfresh.1⟩
    · rw [hsizeLive b hb]
      exact hi.posLive b hb
  · refine List.pairwise_cons.mpr ⟨fun b hb => .inr ?_, apart_pairwise_congr hi.apart hsizeLive⟩
    rw [hsizeLive b hb]
    exact hend b (List.mem_append_right _ hb)
  · intro b hb c hc
    rcases List.mem_cons.mp hb with rfl | hb
    · refine .inr ?_
      rw [hsizeR c hc]
      exact hend c (List.mem_append_left _ hc)
    · exact apart_congr (hi.cross b hb c hc) (hsizeLive b hb) (hsizeR c hc)
  · intro b hb x hx hx'
    rcases List.mem_append.mp hb with hb | hb
    · rw [hsizeR b hb] at hx'
      exact howned x (hi.inside b (List.mem_append_left _ hb) x hx hx')
    · rcases List.mem_cons.mp hb with rfl | hb
      · rw [hself] at hx'
        refine ⟨_, List.mem_cons_self, b, rfl, hx, ?_⟩
        show (x : Int) < b + nu * 16
        omega
      · rw [hsizeLive b hb] at hx'
        exact howned x (hi.inside b (List.mem_append_right _ hb) x hx hx')
  · have htot := hi.total
    have hR : sizes (h.granted nu a) R = sizes h R := sizes_congr hsizeR
    have hlive : sizes (h.granted nu a) live = sizes h live := sizes_congr hsizeLive
    rw [granted_units, ← htot]
    simp only [sizes_append, sizes_cons, hR, hlive, hself]
    omega

theorem moreUnits_le (nunits : Nat) : nunits ≤ Heap.moreUnits nunits := by
  rw [Heap.moreUnits]
  split
  · omega
  · exact Nat.le_refl _

/-- The call of `sbrk()` that is wanted: its argument is the bytes of the units. -/
def Heap.asked (nunits : Nat) (answer : Option Nat) : SbrkCall :=
  { arg := Heap.moreUnits nunits * 16, units := Heap.moreUnits nunits, answer := answer }

theorem bmod_bytes_iff (nu : Nat) : Int.bmod (nu * Heap.sizeofHeader) (2 ^ 32) = nu * 16 ↔ 16 * nu < 2 ^ 31 := by
  rw [Heap.sizeofHeader, Int.bmod_def]
  omega

theorem moreUnits_lt : 16 * Heap.moreUnits nunits < 2 ^ 31 ↔ 16 * nunits < 2 ^ 31 := by
  rw [Heap.moreUnits]
  split <;> omega

/-- It is the one that is made if the argument is an `int`. -/
theorem sbrkCall_eq (hn : 16 * nunits < 2 ^ 31) :
    Heap.sbrkCall (Heap.moreUnits nunits) answer = Heap.asked nunits answer :=
  congrArg (fun arg => SbrkCall.mk arg (Heap.moreUnits nunits) answer) ((bmod_bytes_iff _).mpr (moreUnits_lt.mpr hn))

/-- What `sbrk()` may answer a request for `nunits`; the heap stays below `limit` units. -/
def Heap.Allowed (h : Heap) (base limit nunits : Nat) (answer : Option Nat) : Prop :=
  ∀ a, answer = some a → h.Fresh base a ∧ h.units + Heap.moreUnits nunits < limit

/-- What a call of `malloc()` for `nunits` returns and leaves. -/
inductive Result (base : Nat) (h : Heap) (R live : List Nat) (nunits : Nat) (answer : Option Nat) : Nat → Heap → Prop
  | failed : answer = none → Result base h R live nunits answer 0 { h with calls := Heap.asked nunits none :: h.calls }
  | block {bp R' h'} : Inv base h' R' (bp :: live) → h'.size bp = nunits → (∀ a ∈ live, h'.size a = h.size a) →
      (h'.calls = h.calls ∨ h'.calls = Heap.asked nunits answer :: h.calls) →
      Result base h R live nunits answer (bp + 16) h'

theorem search_spec (hi : Inv base h R live) (hbase : 0 < base) (hn : 0 < nunits)
    (hint : 16 * nunits < 2 ^ 31 ∨ h.HasFree nunits) (hans : h.Allowed base (2 ^ 32) nunits answer)
    (hfuel : 2 * R.length + 3 ≤ fuel) :
    ∃ ap h', Heap.search nunits fuel [answer] h.freep (h.ptr h.freep) h = some (ap, h') ∧
      Result base h R live nunits answer ap h' := by
  obtain ⟨k, rfl⟩ : ∃ k, fuel = R.length + k := Nat.exists_eq_add_of_le (by omega)
  rcases search_all k [answer] hi hn with ⟨-, bp, h', ⟨⟨R', hinv⟩, hsize, hothers, hcalls⟩, hfound⟩ |
    ⟨hno, hsmall, c', haround⟩
  · exact ⟨_, _, hfound, .block hinv hsize hothers (.inl hcalls)⟩
  · have hcall : ∀ answer, Heap.sbrkCall (Heap.moreUnits nunits) answer = Heap.asked nunits answer :=
      fun _ => sbrkCall_eq (hint.resolve_right hno)
    rw [haround, Heap.search_around (Nat.not_le.mpr hsmall)]
    cases answer with
    | none =>
      refine ⟨_, _, rfl, ?_⟩
      rw [hcall]
      exact .failed rfl
    | some a =>
      obtain ⟨hfresh, hunits⟩ := hans a rfl
      obtain ⟨nu, hnu⟩ : ∃ nu, nu = Heap.moreUnits nunits := ⟨_, rfl⟩
      have hle : nunits ≤ nu := hnu ▸ moreUnits_le nunits
      have hgrant := hi.grant hfresh (Nat.lt_of_lt_of_le hn hle)
      have hstate : h.granted nu a = { h with
          calls := Heap.sbrkCall (Heap.moreUnits nunits) (some a) :: h.calls
          size := update h.size a (Heap.moreUnits nunits) } := by
        rw [hcall, Heap.asked, ← hnu]
        rfl
      have hgu : (h.granted nu a).units < 2 ^ 32 := by
        rw [granted_units]
        omega
      obtain ⟨h₂, R₂, hfree, hinv, hlen, ⟨b, hb, hbig⟩, hsize₂, hcalls₂⟩ :=
        free_spec hgrant hgu (show R.length < k by omega)
      have hself : (h.granted nu a).size a = nu := update_self ..
      have hpos : h₂.freep ≠ 0 := by
        have hle := hinv.base_le hinv.freep
        omega
      have hothers : ∀ x ∈ live, h₂.size x = h.size x := by
        intro x hx
        have hne : x ≠ a := fun hc => hgrant.fresh.2 (hc ▸ hx)
        rw [hsize₂ x hx]
        exact update_of_ne hne ..
      have hmore : h.morecore k nunits (some a) = some (h₂.freep, h₂) := by
        rw [hstate] at hfree
        show (Heap.free _ k (a + 16)).map _ = _
        rw [hfree, Option.map_some]
      rw [hstate, hcall] at hcalls₂
      obtain ⟨k', rfl⟩ : ∃ k', k = R₂.length + k' := Nat.exists_eq_add_of_le (by omega)
      rcases search_all k' [] hinv hn with ⟨-, bp, h', ⟨⟨R', hinv'⟩, hsize, hothers', hcalls'⟩, hfound⟩ | ⟨hno₂, -⟩
      · refine ⟨bp + 16, h', ?_, .block hinv' hsize (fun x hx => (hothers' x hx).trans (hothers x hx))
          (.inr (hcalls'.trans hcalls₂))⟩
        rw [hmore]
        exact (if_neg hpos).trans hfound
      · rw [hself] at hbig
        exact absurd (hinv.hasFree_iff.mpr ⟨b, hb, hle.trans hbig⟩) hno₂

/-- Memory that is wanted is asked for, whatever the argument becomes. -/
theorem search_asks {r : Nat × Heap} (hi : Inv base h R live) (hn : 0 < nunits) (hno : ¬ h.HasFree nunits)
    (hret : Returns (fun fuel => Heap.search nunits fuel [answer] h.freep (h.ptr h.freep) h) r) :
    r.2.calls = Heap.sbrkCall (Heap.moreUnits nunits) answer :: h.calls := by
  obtain ⟨k, hk⟩ := hret
  have hrun := hk (R.length + k) (Nat.le_add_left ..)
  rcases search_all k [answer] hi hn with ⟨hhas, -⟩ | ⟨-, hsmall, c', haround⟩
  · exact absurd hhas hno
  · dsimp only at hrun
    rw [haround, Heap.search_around (Nat.not_le.mpr hsmall)] at hrun
    cases hmore : h.morecore k nunits answer with
    | none =>
      rw [hmore] at hrun
      cases hrun
    | some pr =>
      have hcalls := Heap.morecore_calls hmore
      rw [hmore] at hrun
      dsimp only at hrun
      split at hrun
      · cases hrun
        exact hcalls
      · rw [Heap.search_nil_calls hrun, hcalls]

/-! ## Whole calls -/

/-- The units that `malloc()` looks for. -/
def unitsFor (nbytes : Nat) : Nat := (nbytes + 15) / 16 + 1

/-- The heap that the search of `malloc()` starts from. -/
def Heap.initialised (h : Heap) (base : Nat) : Heap :=
  if h.freep = 0 then
    { h with ptr := update h.ptr base base, freep := base, size := update h.size base 0 }
  else h

theorem malloc_eq {answers : List (Option Nat)} (hn : nbytes < 2 ^ 32) :
    h.malloc base fuel nbytes answers = Heap.search (unitsFor nbytes) fuel answers (h.initialised base).freep
      ((h.initialised base).ptr (h.initialised base).freep) (h.initialised base) := by
  have hunits : ((nbytes + Heap.sizeofHeader - 1) / Heap.sizeofHeader + 1) % 2 ^ 32 = unitsFor nbytes := by
    rw [Heap.sizeofHeader, unitsFor]
    omega
  rw [Heap.malloc, hunits]
  rfl

/-- A heap that has not been used, or one with its lists. -/
inductive Ready (base : Nat) (h : Heap) (live : List Nat) : Prop
  | unused : h.freep = 0 → h.calls = [] → live = [] → Ready base h live
  | used {R' : List Nat} : Inv base h R' live → Ready base h live

theorem Ready.initialised (hr : Ready base h live) (hbase : 0 < base) : ∃ R, Inv base (h.initialised base) R live := by
  cases hr with
  | unused hfreep hcalls hlive =>
    refine ⟨[base], ?_⟩
    rw [Heap.initialised, if_pos hfreep, hlive]
    refine ⟨rfl, ⟨update_self .., trivial⟩, List.mem_singleton_self base, update_self .., fun b hb hne => ?_,
      fun a ha => absurd ha List.not_mem_nil, List.pairwise_singleton .., List.Pairwise.nil, fun a ha =>
      absurd ha List.not_mem_nil,
      fun b hb x hx hx' => ?_, ?_⟩
    · exact absurd (List.mem_singleton.mp hb) hne
    · rw [List.append_nil, List.mem_singleton] at hb
      change x < b + 16 * update h.size base 0 b at hx'
      rw [hb, update_self] at hx'
      omega
    · rw [List.append_nil, sizes_cons, Heap.units, hcalls]
      show update h.size base 0 base + 0 = 0
      rw [update_self]
  | used hi =>
    have hne : h.freep ≠ 0 := by
      have hle := hi.base_le hi.freep
      omega
    rw [Heap.initialised, if_neg hne]
    exact ⟨_, hi⟩

theorem Heap.initialised_calls (h : Heap) : (h.initialised base).calls = h.calls := by
  rw [Heap.initialised]
  split <;> rfl

/-- The memory for a request is free, or `sbrk()` can be asked for it. -/
def Heap.Serves (h : Heap) (base nbytes : Nat) : Prop :=
  nbytes ≤ 2 ^ 31 - 32 ∨ (h.initialised base).HasFree (unitsFor nbytes)

theorem Heap.serves_iff :
    h.Serves base nbytes ↔ 16 * unitsFor nbytes < 2 ^ 31 ∨ (h.initialised base).HasFree (unitsFor nbytes) := by
  rw [Heap.Serves, show nbytes ≤ 2 ^ 31 - 32 ↔ 16 * unitsFor nbytes < 2 ^ 31 by rw [unitsFor]; omega]

theorem malloc_spec (hr : Ready base h live) (hbase : 0 < base) (hn : nbytes < 2 ^ 32) (hserves : h.Serves base nbytes)
    (hans : h.Allowed base (2 ^ 32) (unitsFor nbytes) answer) :
    ∃ R ap h', Inv base (h.initialised base) R live ∧
      Result base (h.initialised base) R live (unitsFor nbytes) answer ap h' ∧
      Returns (fun fuel => h.malloc base fuel nbytes [answer]) (ap, h') := by
  obtain ⟨R, hi⟩ := hr.initialised hbase
  have hcalls : (h.initialised base).calls = h.calls := h.initialised_calls
  have hans' : (h.initialised base).Allowed base (2 ^ 32) (unitsFor nbytes) answer := by
    intro a ha
    rw [Heap.Fresh, hcalls, units_congr hcalls]
    exact hans a ha
  have hpos : 0 < unitsFor nbytes := Nat.succ_pos _
  obtain ⟨ap, h', hsearch, hres⟩ := search_spec hi hbase hpos (Heap.serves_iff.mp hserves) hans' (Nat.le_refl _)
  refine ⟨R, ap, h', hi, hres, returns_of_mono (n := 2 * R.length + 3) (fun fuel hfuel => ?_) ?_⟩
  · rw [malloc_eq hn] at hfuel ⊢
    exact Heap.search_mono hfuel
  · rw [malloc_eq hn]
    exact hsearch

/-- A request that cannot be served makes `morecore()` record other bytes than it asks for. -/
theorem malloc_asks {r : Nat × Heap} (hr : Ready base h live) (hbase : 0 < base) (hn : nbytes < 2 ^ 32)
    (hserves : ¬ h.Serves base nbytes) (hret : Returns (fun fuel => h.malloc base fuel nbytes [answer]) r) :
    ∃ c ∈ r.2.calls, c.arg ≠ c.units * 16 := by
  obtain ⟨R, hi⟩ := hr.initialised hbase
  rw [Heap.serves_iff, not_or] at hserves
  simp only [malloc_eq hn] at hret
  have hpos : 0 < unitsFor nbytes := Nat.succ_pos _
  have hcalls := search_asks hi hpos hserves.2 hret
  refine ⟨Heap.sbrkCall (Heap.moreUnits (unitsFor nbytes)) answer, ?_, fun harg => hserves.1 ?_⟩
  · rw [hcalls]
    exact List.mem_cons_self
  · unfold Heap.sbrkCall at harg
    dsimp only at harg
    exact moreUnits_lt.mp ((bmod_bytes_iff _).mp harg)

end

end Xv6.User
