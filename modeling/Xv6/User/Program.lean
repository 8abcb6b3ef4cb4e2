import Xv6.User.Heap
import Mathlib.Data.List.Pairwise
import Mathlib.Logic.Relation

/-!
# Programs that use the heap

* `Program`, `Call`, `Step` : a program calls `malloc()` and `free()` and writes to the blocks it has;
* `Reaches base limit p` : a run in which the calls are as they should be and `sbrk()` gives less than `limit` units;
* `Sound base p` : the lists of the heap, and the room in the blocks of the program;
* `malloc_inside` : the requests for which the arithmetic of `malloc()` is right.
-/

namespace Xv6.User
open Fuel Function

structure Program where
  heap : Heap
  /-- The pointers that the program may use, with the number of bytes it asked for. -/
  live : List (Nat × Nat)

inductive Call
  /-- `sbrk()` returns `answer` if it is called. -/
  | malloc (nbytes : Nat) (answer : Option Nat)
  | free (ap : Nat)
  /-- The memory changes in the blocks of the program. -/
  | write (ptr size : Nat → Nat)

def Program.headers (p : Program) : List Nat := p.live.map fun b => b.1 - 16

def Call.Allowed (base limit : Nat) (p : Program) : Call → Prop
  | malloc nbytes answer =>
    nbytes < 2 ^ 32 ∧ p.heap.Serves base nbytes ∧ p.heap.Allowed base limit (unitsFor nbytes) answer
  | free ap => ∃ nbytes, (ap, nbytes) ∈ p.live
  | write ptr size => ∀ x, (∀ b ∈ p.live, x + 16 ≤ b.1 ∨ b.1 + b.2 ≤ x) → ptr x = p.heap.ptr x ∧ size x = p.heap.size x

inductive Step (base : Nat) (p : Program) : Call → Program → Prop
  | failed {nbytes : Nat} {answer : Option Nat} {h : Heap} :
      Returns (fun fuel => p.heap.malloc base fuel nbytes [answer]) (0, h) →
      Step base p (.malloc nbytes answer) { p with heap := h }
  | malloc {nbytes ap : Nat} {answer : Option Nat} {h : Heap} :
      Returns (fun fuel => p.heap.malloc base fuel nbytes [answer]) (ap, h) → ap ≠ 0 →
      Step base p (.malloc nbytes answer) { heap := h, live := (ap, nbytes) :: p.live }
  | free {ap : Nat} {h : Heap} :
      Returns (fun fuel => p.heap.free fuel ap) h →
      Step base p (.free ap) { heap := h, live := p.live.eraseP fun b => b.1 = ap }
  | write {ptr size : Nat → Nat} :
      Step base p (.write ptr size) { p with heap := { p.heap with ptr := ptr, size := size } }

/-- The program starts with a heap that has not been used. -/
def Reaches (base limit : Nat) (p : Program) : Prop :=
  ∃ h : Heap, h.freep = 0 ∧ h.calls = [] ∧
    Relation.ReflTransGen (fun p p' => ∃ c : Call, c.Allowed base limit p ∧ Step base p c p') ⟨h, []⟩ p

structure Sound (base : Nat) (p : Program) : Prop where
  ready : Ready base p.heap p.headers
  /-- The bytes that were asked for are in the block after its header. -/
  room : ∀ b ∈ p.live, 16 ≤ b.1 ∧ b.2 + 16 ≤ 16 * p.heap.size (b.1 - 16)
  /-- The blocks that `morecore()` records are what it asked for. -/
  asked : ∀ c ∈ p.heap.calls, c.arg = c.units * 16
  units : p.heap.units < 2 ^ 32

section
variable {base : Nat} {p p' p'' : Program} {c : Call} {h h' : Heap} {R : List Nat} {limit k : Nat}

theorem Step.unique (h : Step base p c p') (h' : Step base p c p'') : p' = p'' := by
  cases h with
  | failed hr =>
    cases h' with
    | failed hr' => rw [(Prod.mk.inj (hr.unique hr')).2]
    | malloc hr' hne => exact absurd (Prod.mk.inj (hr.unique hr')).1.symm hne
  | malloc hr hne =>
    cases h' with
    | failed hr' => exact absurd (Prod.mk.inj (hr.unique hr')).1 hne
    | malloc hr' _ =>
      obtain ⟨hap, hh⟩ := Prod.mk.inj (hr.unique hr')
      rw [hap, hh]
  | free hr =>
    cases h' with
    | free hr' => rw [hr.unique hr']
  | write =>
    cases h'
    rfl

/-! ## One call -/

theorem Inv.congr {live : List Nat} (hi : Inv base h R live) (hptr : ∀ b ∈ R, h'.ptr b = h.ptr b)
    (hsize : ∀ b ∈ R ++ live, h'.size b = h.size b) (hfreep : h'.freep = h.freep) (hcalls : h'.calls = h.calls) :
    Inv base h' R live := by
  have hR : ∀ b ∈ R, h'.size b = h.size b := fun b hb => hsize b (List.mem_append_left _ hb)
  have hlive : ∀ b ∈ live, h'.size b = h.size b := fun b hb => hsize b (List.mem_append_right _ hb)
  refine ⟨hi.head, hi.ring.congr hptr, hfreep ▸ hi.freep, ?_, ?_, ?_, gap_congr hi.order hR,
    apart_pairwise_congr hi.apart hlive, ?_, ?_, ?_⟩
  · rw [hR base (List.mem_of_mem_head? hi.head), hi.zero]
  · intro b hb hne
    rw [hR b hb]
    exact hi.pos b hb hne
  · intro b hb
    rw [hlive b hb]
    exact hi.posLive b hb
  · exact fun a ha b hb => apart_congr (hi.cross a ha b hb) (hlive a ha) (hR b hb)
  · exact fun b hb => inside_congr (hi.inside b hb) hcalls (hsize b hb)
  · rw [units_congr hcalls, ← hi.total]
    exact sizes_congr hsize

theorem units_cons {c : SbrkCall} (hcalls : h'.calls = c :: h.calls) :
    h'.units = (if c.answer.isSome then c.units else 0) + h.units := by
  rw [Heap.units, Heap.units, hcalls, List.map_cons, List.sum_cons]

theorem Inv.failed {live : List Nat} (hi : Inv base h R live) (nunits : Nat) :
    Inv base { h with calls := Heap.asked nunits none :: h.calls } R live where
  head := hi.head
  ring := hi.ring
  freep := hi.freep
  zero := hi.zero
  pos := hi.pos
  posLive := hi.posLive
  order := hi.order
  apart := hi.apart
  cross := hi.cross
  inside := by
    intro b hb x hx hx'
    obtain ⟨c, hc, howned⟩ := hi.inside b hb x hx hx'
    exact ⟨c, List.mem_cons_of_mem _ hc, howned⟩
  total := hi.total.trans ((units_cons rfl).trans (Nat.zero_add _)).symm

/-- A write to the blocks of the program leaves all headers as they are. -/
theorem Sound.away (hs : Sound base p) (hi : Inv base p.heap R p.headers) {x : Nat} (hx : x ∈ R ++ p.headers) :
    ∀ b ∈ p.live, x + 16 ≤ b.1 ∨ b.1 + b.2 ≤ x := by
  intro b hb
  have hhead : b.1 - 16 ∈ p.headers := List.mem_map_of_mem hb
  obtain ⟨hge, hroom⟩ := hs.room b hb
  have hposb := hi.posLive _ hhead
  rcases List.mem_append.mp hx with hx | hx
  · by_cases hbase : x = base
    · omega
    · have hposx := hi.pos x hx hbase
      have hap := hi.cross _ hhead x hx
      rw [Apart] at hap
      omega
  · by_cases hsame : x = b.1 - 16
    · omega
    · have hposx := hi.posLive x hx
      have : Std.Symm (Apart p.heap.size) := ⟨fun _ _ => Apart.symm⟩
      have hap := hi.apart.forall hx hhead hsame
      rw [Apart] at hap
      omega

theorem Sound.write {ptr size : Nat → Nat} (hs : Sound base p) (hc : (Call.write ptr size).Allowed base (2 ^ 32) p) :
    Sound base { p with heap := { p.heap with ptr := ptr, size := size } } := by
  cases hs.ready with
  | unused hfreep hcalls hlive =>
    have hnil : p.live = [] := List.map_eq_nil_iff.mp hlive
    refine ⟨.unused hfreep hcalls hlive, ?_, hs.asked, hs.units⟩
    intro b hb
    rw [hnil] at hb
    exact absurd hb List.not_mem_nil
  | used hi =>
    refine ⟨.used (hi.congr (fun b hb => ?_) (fun b hb => ?_) rfl rfl), ?_, hs.asked, hs.units⟩
    · exact (hc b (hs.away hi (List.mem_append_left _ hb))).1
    · exact (hc b (hs.away hi hb)).2
    · intro b hb
      have hhead : b.1 - 16 ∈ p.headers := List.mem_map_of_mem hb
      show 16 ≤ b.1 ∧ b.2 + 16 ≤ 16 * size (b.1 - 16)
      rw [(hc _ (hs.away hi (List.mem_append_right _ hhead))).2]
      exact hs.room b hb

theorem Sound.malloc {nbytes : Nat} {answer : Option Nat} (hs : Sound base p) (hbase : 0 < base)
    (hc : (Call.malloc nbytes answer).Allowed base (2 ^ 32) p) :
    ∃ ap h, Returns (fun fuel => p.heap.malloc base fuel nbytes [answer]) (ap, h) ∧
      ((ap = 0 ∧ h = { p.heap.initialised base with calls := h.calls } ∧ Sound base { p with heap := h }) ∨
        (ap ≠ 0 ∧ Sound base { heap := h, live := (ap, nbytes) :: p.live })) := by
  obtain ⟨hn, hserves, hans⟩ := hc
  obtain ⟨R, ap, h, hi, hres, hret⟩ := malloc_spec hs.ready hbase hn hserves hans
  refine ⟨ap, h, hret, ?_⟩
  have hsize : ∀ b ∈ p.live, (p.heap.initialised base).size (b.1 - 16) = p.heap.size (b.1 - 16) := by
    intro b hb
    rw [Heap.initialised]
    split
    · have hne : b.1 - 16 ≠ base := by
        have hpos := (hi.posLive _ (List.mem_map_of_mem hb)).2
        omega
      exact update_of_ne hne ..
    · rfl
  have hcalls : (p.heap.initialised base).calls = p.heap.calls := p.heap.initialised_calls
  have hasked : ∀ c ∈ Heap.asked (unitsFor nbytes) answer :: p.heap.calls, c.arg = c.units * 16 := by
    intro c hmem
    rcases List.mem_cons.mp hmem with rfl | hmem
    · rfl
    · exact hs.asked c hmem
  have hmore : ∀ h' : Heap, h'.calls = Heap.asked (unitsFor nbytes) answer :: p.heap.calls → h'.units < 2 ^ 32 := by
    intro h' heq
    have hunits := hs.units
    have hadd := units_cons heq
    cases answer with
    | none =>
      have hsame : h'.units = 0 + p.heap.units := hadd
      omega
    | some a =>
      have hmore : h'.units = Heap.moreUnits (unitsFor nbytes) + p.heap.units := hadd
      have hlt := (hans a rfl).2
      omega
  cases hres with
  | failed hnone =>
    refine .inl ⟨rfl, rfl, .used (hi.failed _), fun b hb => ?_, fun c hmem => ?_, ?_⟩
    · show 16 ≤ b.1 ∧ b.2 + 16 ≤ 16 * (p.heap.initialised base).size (b.1 - 16)
      rw [hsize b hb]
      exact hs.room b hb
    · rw [← hnone, hcalls] at hmem
      exact hasked c hmem
    · refine hmore _ ?_
      rw [hnone, ← hcalls]
  | block hinv hunits hothers hcalls' =>
    refine .inr ⟨by omega, .used hinv, fun b hb => ?_, fun c hmem => ?_, ?_⟩
    · rcases List.mem_cons.mp hb with rfl | hb
      · refine ⟨Nat.le_add_left .., ?_⟩
        show nbytes + 16 ≤ 16 * h.size _
        rw [Nat.add_sub_cancel, hunits, unitsFor]
        omega
      · show 16 ≤ b.1 ∧ b.2 + 16 ≤ 16 * h.size (b.1 - 16)
        rw [hothers _ (List.mem_map_of_mem hb), hsize b hb]
        exact hs.room b hb
    · rcases hcalls' with heq | heq
      · rw [heq, hcalls] at hmem
        exact hs.asked c hmem
      · rw [heq, hcalls] at hmem
        exact hasked c hmem
    · rcases hcalls' with heq | heq
      · rw [units_congr (heq.trans hcalls)]
        exact hs.units
      · refine hmore h ?_
        rw [heq, hcalls]

theorem free_returns {n ap : Nat} (hfree : h.free n ap = some h') : Returns (fun fuel => h.free fuel ap) h' :=
  returns_of_mono (fun _ => Heap.free_mono) hfree

theorem Sound.free {ap : Nat} (hs : Sound base p) (hc : (Call.free ap).Allowed base (2 ^ 32) p) :
    ∃ h, Returns (fun fuel => p.heap.free fuel ap) h ∧
      Sound base { heap := h, live := p.live.eraseP fun b => b.1 = ap } := by
  obtain ⟨nbytes, hmem⟩ := hc
  obtain ⟨b, l₁, l₂, -, hb, hlive, herase⟩ := List.exists_of_eraseP hmem (p := fun b => b.1 = ap) (decide_eq_true rfl)
  have hap : b.1 = ap := of_decide_eq_true hb
  obtain ⟨hge, -⟩ := hs.room b (hlive ▸ List.mem_append_right _ List.mem_cons_self)
  have hperm : p.headers.Perm ((ap - 16) :: (l₁ ++ l₂).map fun b => b.1 - 16) := by
    rw [Program.headers, hlive, ← hap]
    exact (List.perm_middle).map _
  cases hs.ready with
  | unused _ _ hnil =>
    rw [hnil] at hperm
    exact absurd hperm.nil_eq (List.cons_ne_nil _ _).symm
  | @used R hi =>
    obtain ⟨h, R', hfree, hinv, -, -, hsize, hcalls⟩ := free_spec (hi.perm hperm) hs.units (Nat.lt_succ_self _)
    rw [show ap - 16 + 16 = ap by omega] at hfree
    refine ⟨h, free_returns hfree, ?_⟩
    rw [herase]
    refine ⟨.used hinv, fun b' hb' => ?_, fun c hc => ?_, (units_congr hcalls).trans_lt hs.units⟩
    · show 16 ≤ b'.1 ∧ b'.2 + 16 ≤ 16 * h.size (b'.1 - 16)
      rw [hsize _ (List.mem_map_of_mem hb')]
      refine hs.room b' ?_
      rw [hlive]
      exact List.Perm.mem_iff List.perm_middle |>.mpr (List.mem_cons_of_mem b hb')
    · change c ∈ h.calls at hc
      rw [hcalls] at hc
      exact hs.asked c hc

/-! ## Blocks one after another -/

/-- A program that has not called `malloc()`. -/
def unusedHeap : Heap := { ptr := fun _ => 0, size := fun _ => 0, freep := 0, calls := [] }

theorem reaches_unused (base limit : Nat) : Reaches base limit ⟨unusedHeap, []⟩ := ⟨unusedHeap, rfl, rfl, .refl⟩

section
variable {h : Heap} {a b : Nat}

theorem free_alone (hfreep : h.freep = base) (hptr : h.ptr base = base) (hsize : h.size base = 0) (ha : base + 16 ≤ a) :
    h.free 1 (a + 16) = some { h with ptr := update (update h.ptr a base) base a, freep := base } := by
  have hplace : h.place a 1 base = some base := by
    rw [Heap.place, hptr, if_neg (by omega), if_pos ⟨Nat.le_refl _, .inl (by omega)⟩]
  have hnext : h.joinNext a base = { h with ptr := update h.ptr a base } := by
    rw [Heap.joinNext, hptr]
    exact if_neg (by omega)
  have hprev : Heap.joinPrev { h with ptr := update h.ptr a base } a base =
      { h with ptr := update (update h.ptr a base) base a } := by
    rw [Heap.joinPrev, hsize]
    exact if_neg (by omega)
  have hsub : a + 16 - Heap.sizeofHeader = a := Nat.add_sub_cancel ..
  rw [Heap.free, hsub, hfreep, hplace, Option.map_some, hnext, hprev]

/-- The block right below the only free block is freed. -/
theorem free_below (hfreep : h.freep = base) (hptr : h.ptr base = b) (hsize : h.size base = 0) (ha : base + 16 ≤ a)
    (hab : a + 16 * h.size a = b) (hpos : 0 < h.size a) :
    h.free 1 (a + 16) = some { h with
      ptr := update (update h.ptr a (h.ptr b)) base a
      size := update h.size a ((h.size a + h.size b) % 2 ^ 32)
      freep := base } := by
  have hplace : h.place a 1 base = some base := by
    rw [Heap.place, hptr, if_pos (by omega)]
  have hnext : h.joinNext a base = { h with
      ptr := update h.ptr a (h.ptr b), size := update h.size a ((h.size a + h.size b) % 2 ^ 32) } := by
    rw [Heap.joinNext, hptr]
    exact if_pos hab
  have hprev : Heap.joinPrev { h with
        ptr := update h.ptr a (h.ptr b), size := update h.size a ((h.size a + h.size b) % 2 ^ 32) } a base =
      { h with
        ptr := update (update h.ptr a (h.ptr b)) base a
        size := update h.size a ((h.size a + h.size b) % 2 ^ 32) } := by
    refine if_neg ?_
    show ¬ base + 16 * update h.size a _ base = a
    rw [update_of_ne (by omega), hsize]
    omega
  have hsub : a + 16 - Heap.sizeofHeader = a := Nat.add_sub_cancel ..
  rw [Heap.free, hsub, hfreep, hplace, Option.map_some, hnext, hprev]

/-- No block is free: the block from `sbrk()` is given to the caller as it is. -/
theorem malloc_alone (nbytes : Nat) (hfreep : (h.initialised base).freep = base)
    (hptr : (h.initialised base).ptr base = base) (hsize : (h.initialised base).size base = 0) (hbase : 0 < base)
    (ha : base + 16 ≤ a) (hmin : 4096 ≤ unitsFor nbytes) (hn : nbytes < 2 ^ 32) :
    ∃ h', Returns (fun fuel => h.malloc base fuel nbytes [some a]) (a + 16, h') ∧ h'.freep = base ∧ h'.ptr base = base ∧
      h'.size = update (h.initialised base).size a (unitsFor nbytes) ∧
      h'.calls = Heap.sbrkCall (unitsFor nbytes) (some a) :: (h.initialised base).calls := by
  obtain ⟨g, hg⟩ : ∃ g, g = h.initialised base := ⟨_, rfl⟩
  obtain ⟨u, hu⟩ : ∃ u, u = unitsFor nbytes := ⟨_, rfl⟩
  rw [← hg] at hfreep hptr hsize ⊢
  rw [← hu] at hmin ⊢
  have hmore : Heap.moreUnits u = u := if_neg (by omega)
  have hne : base ≠ a := by omega
  obtain ⟨g₁, hg₁⟩ : ∃ g₁ : Heap, g₁ = { g with
      ptr := update (update g.ptr a base) base a, size := update g.size a u, freep := base,
      calls := Heap.sbrkCall u (some a) :: g.calls } := ⟨_, rfl⟩
  have hcore : g.morecore 1 u (some a) = some (base, g₁) := by
    have hfree := free_alone (h := { g with
      calls := Heap.sbrkCall u (some a) :: g.calls, size := update g.size a u }) hfreep hptr
      ((update_of_ne hne ..).trans hsize) ha
    have hcore : g.morecore 1 u (some a) = (Heap.free { g with
        calls := Heap.sbrkCall (Heap.moreUnits u) (some a) :: g.calls
        size := update g.size a (Heap.moreUnits u) } 1 (a + 16)).map fun h => (h.freep, h) := rfl
    rw [hcore, hmore, hfree, hg₁]
    rfl
  have hbehind : g₁.ptr base = a := by
    rw [hg₁]
    exact update_self ..
  have hround : g₁.ptr a = base := by
    rw [hg₁]
    show update (update g.ptr a base) base a a = base
    rw [update_of_ne hne.symm, update_self]
  have hunits : g₁.size a = u := by
    rw [hg₁]
    exact update_self ..
  have htake : g₁.take u base a = (a + 16, { g₁ with ptr := update g₁.ptr base base, freep := base }) := by
    rw [Heap.take, if_pos hunits, hround]
    rfl
  have hsearch : Heap.search u 2 [some a] g.freep (g.ptr g.freep) g = some (g₁.take u base a) := by
    rw [hfreep, hptr]
    conv_lhs => rw [← hfreep]
    rw [Heap.search_around (by rw [hfreep, hsize]; omega), hcore]
    refine (if_neg (by omega)).trans ?_
    rw [hbehind]
    exact Heap.search_fits hunits.ge
  refine ⟨{ g₁ with ptr := update g₁.ptr base base, freep := base }, returns_of_mono (n := 2) (fun fuel hfuel => ?_) ?_,
    rfl, update_self .., ?_, ?_⟩
  · rw [malloc_eq hn] at hfuel ⊢
    exact Heap.search_mono hfuel
  · rw [malloc_eq hn, ← hg, ← hu, hsearch, htake]
  · rw [hg₁]
  · rw [hg₁]

end

/-- The largest block whose bytes are an `int`. -/
def bigUnits : Nat := 2 ^ 27 - 1

/-- Where the `k`-th of them is, if `sbrk()` returns one after another. -/
def bigBlock (k : Nat) : Nat := 8192 + 16 * bigUnits * k

def bigLive : Nat → List (Nat × Nat)
  | 0 => []
  | k + 1 => (bigBlock k + 16, 2 ^ 31 - 32) :: bigLive k

/-- `k` blocks are in use, and none is free. -/
structure Filled (limit k : Nat) (p : Program) : Prop where
  reach : Reaches 4096 limit p
  live : p.live = bigLive k
  used : 0 < k → p.heap.freep ≠ 0
  freep : (p.heap.initialised 4096).freep = 4096
  ptr : (p.heap.initialised 4096).ptr 4096 = 4096
  zero : (p.heap.initialised 4096).size 4096 = 0
  size : ∀ j < k, (p.heap.initialised 4096).size (bigBlock j) = bigUnits
  top : ∀ c ∈ p.heap.calls, ∀ a, c.answer = some a → (a : Int) + c.arg ≤ bigBlock k
  units : p.heap.units = bigUnits * k

theorem Reaches.step (hrun : Reaches base limit p) (hc : c.Allowed base limit p) (hstep : Step base p c p') :
    Reaches base limit p' := by
  obtain ⟨h, hfreep, hcalls, hrun⟩ := hrun
  exact ⟨h, hfreep, hcalls, hrun.tail ⟨c, hc, hstep⟩⟩

theorem Filled.next (hf : Filled limit k p) (hk : bigUnits * (k + 1) < limit) :
    ∃ p', Filled limit (k + 1) p' := by
  have hunits : unitsFor (2 ^ 31 - 32) = bigUnits := by decide
  have hge : 4096 + 16 ≤ bigBlock k := by
    rw [bigBlock]
    omega
  obtain ⟨h, hret, hfreep, hptr, hsize, hcalls⟩ := malloc_alone (2 ^ 31 - 32) hf.freep hf.ptr hf.zero (by decide) hge
    (by decide) (by decide)
  rw [hunits] at hsize hcalls
  rw [Heap.initialised_calls] at hcalls
  have hc : (Call.malloc (2 ^ 31 - 32) (some (bigBlock k))).Allowed 4096 limit p := by
    refine ⟨by decide, .inl (Nat.le_refl _), fun a ha => ?_⟩
    cases ha
    refine ⟨⟨hge, hf.top⟩, ?_⟩
    rwa [hf.units, hunits, show Heap.moreUnits bigUnits = bigUnits by decide, ← Nat.mul_succ]
  have hinit : h.initialised 4096 = h := if_neg (by omega)
  have hapart : ∀ j < k, bigBlock j ≠ bigBlock k := by
    intro j hj
    rw [bigBlock, bigBlock, bigUnits]
    omega
  refine ⟨_, hf.reach.step hc (.malloc hret (by omega)), ?_, fun _ => ?_, ?_, ?_, ?_, fun j hj => ?_,
    fun c hmem a ha => ?_, ?_⟩
  · rw [hf.live, bigLive]
  · show h.freep ≠ 0
    omega
  · rw [hinit, hfreep]
  · rw [hinit, hptr]
  · rw [hinit, hsize, update_of_ne (by omega), hf.zero]
  · rw [hinit, hsize]
    by_cases hjk : j = k
    · rw [hjk, update_self]
    · rw [update_of_ne (hapart j (by omega)), hf.size j (by omega)]
  · change c ∈ h.calls at hmem
    rw [hcalls] at hmem
    rcases List.mem_cons.mp hmem with rfl | hmem
    · cases ha
      have harg : (Heap.sbrkCall bigUnits none).arg = 2 ^ 31 - 16 := by decide
      show (bigBlock k : Int) + (Heap.sbrkCall bigUnits none).arg ≤ _
      rw [harg, bigBlock, bigBlock, bigUnits]
      omega
    · have hle := hf.top c hmem a ha
      have hmono : bigBlock k ≤ bigBlock (k + 1) := by
        rw [bigBlock, bigBlock, bigUnits]
        omega
      omega
  · show h.units = _
    rw [units_cons hcalls, hf.units, Nat.mul_succ, Nat.add_comm]
    rfl

theorem exists_filled (hk : bigUnits * k < limit) : ∃ p, Filled limit k p := by
  induction k with
  | zero =>
    exact ⟨_, reaches_unused 4096 limit, rfl, fun hk => absurd hk (Nat.lt_irrefl 0), rfl, rfl, rfl, fun j hj =>
      absurd hj (Nat.not_lt_zero j), fun c hc => absurd hc List.not_mem_nil, rfl⟩
  | succ k ih =>
    obtain ⟨p, hf⟩ := ih (by rw [bigUnits] at hk ⊢; omega)
    exact hf.next hk

/-- Of `n` blocks the last ones are freed, and `k` are in use. -/
structure Merged (limit n k : Nat) (p : Program) : Prop where
  reach : Reaches 4096 limit p
  live : p.live = bigLive k
  freep : p.heap.freep = 4096
  ptr : p.heap.ptr 4096 = bigBlock k
  back : p.heap.ptr (bigBlock k) = 4096
  zero : p.heap.size 4096 = 0
  size : ∀ j < k, p.heap.size (bigBlock j) = bigUnits
  free : p.heap.size (bigBlock k) = bigUnits * (n - k) % 2 ^ 32
  units : p.heap.units = bigUnits * n

theorem allowed_bigLive (hlive : p.live = bigLive (k + 1)) :
    (Call.free (bigBlock k + 16)).Allowed base limit p :=
  ⟨2 ^ 31 - 32, hlive ▸ List.mem_cons_self⟩

theorem erase_bigLive (hlive : p.live = bigLive (k + 1)) :
    (p.live.eraseP fun b => b.1 = bigBlock k + 16) = bigLive k := by
  rw [hlive, bigLive]
  exact List.eraseP_cons_of_pos (decide_eq_true rfl)

section
variable {limit n k : Nat}

theorem Filled.merged (hf : Filled limit (k + 1) p) : ∃ p', Merged limit (k + 1) k p' := by
  have hinit : p.heap.initialised 4096 = p.heap := if_neg (hf.used (Nat.succ_pos k))
  have hfreep := hf.freep
  have hptr := hf.ptr
  have hzero := hf.zero
  have hsize := hf.size
  rw [hinit] at hfreep hptr hzero hsize
  have hge : 4096 + 16 ≤ bigBlock k := by
    rw [bigBlock]
    omega
  have hfree := free_alone (a := bigBlock k) hfreep hptr hzero hge
  have hret := free_returns hfree
  refine ⟨_, hf.reach.step (allowed_bigLive hf.live) (.free hret), erase_bigLive hf.live, rfl,
    update_self 4096 (bigBlock k) (update p.heap.ptr (bigBlock k) 4096), ?_, hzero,
    fun j hj => hsize j (by omega), ?_, hf.units⟩
  · show update (update p.heap.ptr (bigBlock k) 4096) 4096 (bigBlock k) (bigBlock k) = 4096
    rw [update_of_ne (by omega), update_self]
  · show p.heap.size (bigBlock k) = _
    rw [hsize k (Nat.lt_succ_self k), Nat.add_sub_cancel_left]
    decide

theorem Merged.next (hm : Merged limit n (k + 1) p) (hk : k + 1 < n) : ∃ p', Merged limit n k p' := by
  have hsize := hm.size k (Nat.lt_succ_self k)
  have hge : 4096 + 16 ≤ bigBlock k := by
    rw [bigBlock]
    omega
  have hnext : bigBlock k + 16 * p.heap.size (bigBlock k) = bigBlock (k + 1) := by
    rw [hsize, bigBlock, bigBlock, Nat.mul_succ, Nat.add_assoc]
  have hfree := free_below hm.freep hm.ptr hm.zero hge hnext (hsize ▸ by decide)
  have hret := free_returns hfree
  refine ⟨_, hm.reach.step (allowed_bigLive hm.live) (.free hret), erase_bigLive hm.live, rfl,
    update_self 4096 (bigBlock k) (update p.heap.ptr (bigBlock k) (p.heap.ptr (bigBlock (k + 1)))), ?_, ?_,
    fun j hj => ?_, ?_, hm.units⟩
  · show update (update p.heap.ptr (bigBlock k) (p.heap.ptr (bigBlock (k + 1)))) 4096 (bigBlock k) (bigBlock k) = 4096
    rw [update_of_ne (by omega), update_self, hm.back]
  · show update p.heap.size (bigBlock k) _ 4096 = 0
    rw [update_of_ne (by omega), hm.zero]
  · have hne : bigBlock j ≠ bigBlock k := by
      rw [bigBlock, bigBlock, bigUnits]
      omega
    show update p.heap.size (bigBlock k) _ (bigBlock j) = bigUnits
    rw [update_of_ne hne, hm.size j (by omega)]
  · show update p.heap.size (bigBlock k) _ (bigBlock k) = _
    rw [update_self, hsize, hm.free, bigUnits]
    omega

theorem exists_merged {d : Nat} (hn : bigUnits * (k + d + 1) < limit) : ∃ p, Merged limit (k + d + 1) k p := by
  induction d generalizing k with
  | zero =>
    obtain ⟨p, hf⟩ := exists_filled hn
    exact hf.merged
  | succ d ih =>
    rw [show k + (d + 1) + 1 = k + 1 + d + 1 by omega] at hn ⊢
    obtain ⟨p, hm⟩ := ih hn
    exact hm.next (by omega)

end

/-! ## Runs -/

theorem Sound.step (hs : Sound base p) (hbase : 0 < base) (hc : c.Allowed base (2 ^ 32) p) :
    ∃ p', Step base p c p' ∧ Sound base p' := by
  cases c with
  | malloc nbytes answer =>
    obtain ⟨ap, h, hret, ⟨rfl, -, hsound⟩ | ⟨hne, hsound⟩⟩ := hs.malloc hbase hc
    · exact ⟨_, .failed hret, hsound⟩
    · exact ⟨_, .malloc hret hne, hsound⟩
  | free ap =>
    obtain ⟨h, hret, hsound⟩ := hs.free hc
    exact ⟨_, .free hret, hsound⟩
  | write ptr size => exact ⟨_, .write, hs.write hc⟩

theorem Reaches.sound (hbase : 0 < base) (hrun : Reaches base (2 ^ 32) p) : Sound base p := by
  obtain ⟨h, hfreep, hcalls, hrun⟩ := hrun
  induction hrun with
  | refl =>
    refine ⟨.unused hfreep hcalls rfl, fun b hb => absurd hb List.not_mem_nil, fun c hc => ?_, ?_⟩
    · rw [hcalls] at hc
      exact absurd hc List.not_mem_nil
    · rw [Heap.units, hcalls]
      decide
  | tail _ hstep ih =>
    obtain ⟨c, hc, hstep⟩ := hstep
    obtain ⟨p', hstep', hsound⟩ := ih.step hbase hc
    exact hstep'.unique hstep ▸ hsound

/-- **The heap is sound** in every run: free blocks are a ring in address order, no two of them touch, blocks do not
overlap and make up the memory from `sbrk()`, and each has room for what was asked; the calls return, and a `malloc()`
that fails leaves the blocks as they are. -/
theorem heap_sound (hbase : 0 < base) (hrun : Reaches base (2 ^ 32) p) :
    Sound base p ∧ (∀ c : Call, c.Allowed base (2 ^ 32) p → ∃! p', Step base p c p') ∧
      ∀ nbytes answer h, (Call.malloc nbytes answer).Allowed base (2 ^ 32) p →
        Returns (fun fuel => p.heap.malloc base fuel nbytes [answer]) (0, h) →
        h = { p.heap.initialised base with calls := h.calls } := by
  have hs := hrun.sound hbase
  refine ⟨hs, fun c hc => ?_, fun nbytes answer h hc hret => ?_⟩
  · obtain ⟨p', hstep, -⟩ := hs.step hbase hc
    exact ⟨p', hstep, fun p'' hstep' => hstep'.unique hstep⟩
  · obtain ⟨ap, h', hret', ⟨-, heq, -⟩ | ⟨hne, -⟩⟩ := hs.malloc hbase hc
    · rw [(Prod.mk.inj (hret.unique hret')).2]
      exact heq
    · exact absurd (Prod.mk.inj (hret.unique hret')).1.symm hne

/-- Two of three blocks are freed, and are one. -/
theorem heap_sound_merged : ∃ p, Reaches 4096 (2 ^ 32) p ∧ p.live = [(8208, 2 ^ 31 - 32)] ∧
    p.heap.ptr 4096 = bigBlock 1 ∧ p.heap.ptr (bigBlock 1) = 4096 ∧ p.heap.size (bigBlock 1) = 2 * bigUnits ∧
    Sound 4096 p := by
  obtain ⟨p, hm⟩ : ∃ p, Merged (2 ^ 32) 3 1 p := exists_merged (k := 1) (d := 1) (by decide)
  exact ⟨p, hm.reach, hm.live, hm.ptr, hm.back, hm.free, (heap_sound (by decide) hm.reach).1⟩

/-- **The sizes wrap**: 33 blocks of `2 ^ 31 - 16` bytes are given out one after another and then freed from the last to
the first. The free list has one block of `2 ^ 27 - 33` units, and the heap had `33 * (2 ^ 27 - 1)`. -/
theorem heap_size_wraps : ∃ p, Reaches 4096 (2 ^ 33) p ∧ p.live = [] ∧ p.heap.units = 33 * (2 ^ 27 - 1) ∧
    p.heap.ptr 4096 = 8192 ∧ p.heap.ptr 8192 = 4096 ∧ p.heap.size 8192 = 2 ^ 27 - 33 ∧
    ¬ ∃ R, Inv 4096 p.heap R p.headers := by
  obtain ⟨p, hm⟩ : ∃ p, Merged (2 ^ 33) 33 0 p := exists_merged (k := 0) (d := 32) (by decide)
  have hptr : p.heap.ptr 4096 = 8192 := hm.ptr
  have hback : p.heap.ptr 8192 = 4096 := hm.back
  have hfree : p.heap.size 8192 = 2 ^ 27 - 33 := hm.free
  have hunits : p.heap.units = 33 * (2 ^ 27 - 1) := hm.units
  refine ⟨p, hm.reach, hm.live, hunits, hptr, hback, hfree, ?_⟩
  rintro ⟨R, hi⟩
  have hheaders : p.headers = [] := by
    rw [Program.headers, hm.live]
    rfl
  have htotal := hi.total
  rw [hheaders, List.append_nil, hunits] at htotal
  have hring := hi.ring
  have hsorted := hi.sorted
  -- the ring from 4096 has just the two headers
  match R, hi.head with
  | [_], rfl =>
    have hnext : p.heap.ptr 4096 = 4096 := hring.1
    omega
  | [_, b], rfl =>
    have hnext : p.heap.ptr 4096 = b := hring.1
    rw [sizes_cons, sizes_cons, hi.zero, ← hnext, hptr, hfree] at htotal
    cases htotal
  | _ :: b :: c :: _, rfl =>
    have hnext : p.heap.ptr 4096 = b := hring.1
    have hnext' : p.heap.ptr b = c := hring.2.1
    have hlt : 4096 < c := (List.pairwise_cons.mp hsorted).1 c (by simp)
    rw [← hnext, hptr, hback] at hnext'
    omega

/-! ## The arithmetic of `malloc` -/

/-- **A request is served** if it is below `2 ^ 31` bytes or the free list has a block for it, in every state of a run:
it fails or gets a block with the room it asked for, in memory from `sbrk()`, and `morecore()` asks for the bytes that
it records. For all other requests it asks for other bytes. -/
theorem malloc_inside {nbytes : Nat} {answer : Option Nat} (hbase : 0 < base) (hrun : Reaches base (2 ^ 32) p)
    (hn : nbytes < 2 ^ 32) (hans : p.heap.Allowed base (2 ^ 32) (unitsFor nbytes) answer) :
    p.heap.Serves base nbytes ↔
      ∃ ap h, Returns (fun fuel => p.heap.malloc base fuel nbytes [answer]) (ap, h) ∧
        (ap = 0 ∨ 16 ≤ ap ∧ nbytes + 16 ≤ 16 * h.size (ap - 16) ∧ h.Inside (ap - 16)) ∧
        ∀ c ∈ h.calls, c.arg = c.units * 16 := by
  have hs := hrun.sound hbase
  refine ⟨fun hserves => ?_, fun ⟨ap, h, hret, _, hasked⟩ => ?_⟩
  · obtain ⟨ap, h, hret, ⟨hz, -, hsound⟩ | ⟨-, hsound⟩⟩ := hs.malloc hbase ⟨hn, hserves, hans⟩
    · exact ⟨ap, h, hret, .inl hz, hsound.asked⟩
    · obtain ⟨hge, hroom⟩ := hsound.room _ List.mem_cons_self
      refine ⟨ap, h, hret, .inr ⟨hge, hroom, ?_⟩, hsound.asked⟩
      cases hsound.ready with
      | unused _ _ hnil => exact absurd hnil (List.cons_ne_nil _ _)
      | used hi => exact hi.inside _ (List.mem_append_right _ List.mem_cons_self)
  · by_contra hserves
    obtain ⟨c, hc, hne⟩ := malloc_asks hs.ready hbase hn hserves hret
    exact hne (hasked c hc)

/-- 2.5 GiB are taken from two blocks that were freed. -/
theorem malloc_inside_merged : ∃ p ap h, Reaches 4096 (2 ^ 32) p ∧ ap = bigBlock 1 + 16 * 100663293 + 16 ∧
    Returns (fun fuel => p.heap.malloc 4096 fuel 2684354560 [none]) (ap, h) ∧ 2684354560 + 16 ≤ 16 * h.size (ap - 16) ∧
    h.Inside (ap - 16) ∧ ∀ c ∈ h.calls, c.arg = c.units * 16 := by
  obtain ⟨p, hm⟩ : ∃ p, Merged (2 ^ 32) 3 1 p := exists_merged (k := 1) (d := 1) (by decide)
  have hinit : p.heap.initialised 4096 = p.heap := if_neg (by rw [hm.freep]; decide)
  have hfree : p.heap.size (bigBlock 1) = 268435454 := hm.free
  have hunits : unitsFor 2684354560 = 167772161 := by decide
  have hserves : p.heap.Serves 4096 2684354560 := by
    refine .inr ⟨bigBlock 1, ?_, ?_⟩
    · rw [hinit, hm.freep]
      exact .single hm.ptr
    · rw [hinit, hfree, hunits]
      decide
  have hans : p.heap.Allowed 4096 (2 ^ 32) (unitsFor 2684354560) none := fun _ ha => nomatch ha
  obtain ⟨ap, h, hret, hgot, hasked⟩ := (malloc_inside (by decide) hm.reach (by decide) hans).mp hserves
  have hret' : Returns (fun fuel => p.heap.malloc 4096 fuel 2684354560 [none])
      (p.heap.take 167772161 4096 (bigBlock 1)) := by
    refine returns_of_mono (n := 1) (fun fuel hfuel => ?_) ?_
    · rw [malloc_eq (by decide)] at hfuel ⊢
      exact Heap.search_mono hfuel
    · rw [malloc_eq (by decide), hinit, hm.freep, hm.ptr, hunits]
      exact Heap.search_fits (by rw [hfree]; decide)
  have hap : ap = bigBlock 1 + 16 * 100663293 + 16 := by
    have hfst : ap = (p.heap.take 167772161 4096 (bigBlock 1)).1 := congrArg Prod.fst (hret.unique hret')
    rw [hfst, Heap.take, hfree]
    rfl
  obtain ⟨-, hroom, hinside⟩ := hgot.resolve_left (by rw [hap]; exact Nat.succ_ne_zero _)
  exact ⟨p, ap, h, hm.reach, hap, hret, hroom, hinside, hasked⟩

/-- `malloc(0xffffffff)`: the argument of `sbrk()` is 16, and the block that is returned has `2 ^ 28 + 1` units. -/
theorem malloc_asks_for_less :
    ∃ h, Returns (fun fuel => unusedHeap.malloc 4096 fuel (2 ^ 32 - 1) [some 8192]) (8208, h) ∧
    h.calls = [{ arg := 16, units := 2 ^ 28 + 1, answer := some 8192 }] ∧ h.size 8192 = 2 ^ 28 + 1 ∧
      ¬ h.Owned 8208 := by
  have hunits : unitsFor (2 ^ 32 - 1) = 2 ^ 28 + 1 := by decide
  obtain ⟨h, hret, -, -, hsize, hcalls⟩ := malloc_alone (h := unusedHeap) (2 ^ 32 - 1) rfl rfl rfl
    (show 0 < 4096 by decide) (show 4096 + 16 ≤ 8192 by decide) (by decide) (by decide)
  have hone : h.calls = [{ arg := 16, units := 2 ^ 28 + 1, answer := some 8192 }] := by
    rw [hcalls, hunits]
    decide
  refine ⟨h, hret, hone, ?_, ?_⟩
  · rw [hsize, update_self, hunits]
  · rintro ⟨c, hc, a, ha, -, hlt⟩
    rw [hone, List.mem_singleton] at hc
    rw [hc] at ha hlt
    cases ha
    exact absurd hlt (by decide)

end

end Xv6.User
