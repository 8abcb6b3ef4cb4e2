import Mathlib.Algebra.GroupWithZero.Nat
import Mathlib.Data.Int.Init
import Mathlib.Logic.Function.Basic

/-!
# The user's memory allocator

`user/umalloc.c`. Addresses are byte addresses, which stay below `2 ^ 38` in a user program, so that pointer arithmetic
is exact; the `size` of a header is an `uint`.

* `Heap` : the headers in memory, `freep`, and the calls of `sbrk()` so far;
* `free`, `morecore`, `malloc` : the functions of the source. The searches are given a number of turns, and `malloc` the
  answers of `sbrk()`; the result is `none` if they do not suffice.
-/

namespace Xv6.User
open Function

/-- A call of `sbrk()`: its argument, the units that `morecore()` wants, and the address that is returned. -/
structure SbrkCall where
  arg : Int
  units : Nat
  answer : Option Nat
deriving DecidableEq

structure Heap where
  ptr : Nat → Nat
  size : Nat → Nat
  /-- `0` is null. -/
  freep : Nat
  calls : List SbrkCall

namespace Heap

variable {nunits fuel prevp p : Nat} {answers : List (Option Nat)} {h : Heap} {answer : Option Nat} {r : Nat × Heap}

def sizeofHeader : Nat := 16

/-- The loop of `free()` from `p` on. -/
def place (h : Heap) (bp : Nat) : Nat → Nat → Option Nat
  | 0, _ => none
  | fuel + 1, p =>
    if p < bp ∧ bp < h.ptr p then some p
    else if h.ptr p ≤ p ∧ (p < bp ∨ bp < h.ptr p) then some p
    else place h bp fuel (h.ptr p)

/-- `bp` is merged with the block after `p`, or linked to it. -/
def joinNext (h : Heap) (bp p : Nat) : Heap :=
  let next := h.ptr p
  if bp + sizeofHeader * h.size bp = next then
    { h with
      size := update h.size bp ((h.size bp + h.size next) % 2 ^ 32)
      ptr := update h.ptr bp (h.ptr next) }
  else { h with ptr := update h.ptr bp next }

/-- `p` is merged with `bp`, or linked to it. -/
def joinPrev (h : Heap) (bp p : Nat) : Heap :=
  if p + sizeofHeader * h.size p = bp then
    { h with
      size := update h.size p ((h.size p + h.size bp) % 2 ^ 32)
      ptr := update h.ptr p (h.ptr bp) }
  else { h with ptr := update h.ptr p bp }

def free (h : Heap) (fuel ap : Nat) : Option Heap :=
  let bp := ap - sizeofHeader
  (h.place bp fuel h.freep).map fun p => { (h.joinNext bp p).joinPrev bp p with freep := p }

/-- The units that `morecore()` asks for. -/
def moreUnits (nu : Nat) : Nat := if nu < 4096 then 4096 else nu

/-- The call `sbrk(nu * sizeof(Header))`, whose argument is an `int`. -/
def sbrkCall (nu : Nat) (answer : Option Nat) : SbrkCall :=
  { arg := Int.bmod (nu * sizeofHeader) (2 ^ 32), units := nu, answer := answer }

/-- `morecore()` when `sbrk()` returns `answer`. -/
def morecore (h : Heap) (fuel nu : Nat) : Option Nat → Option (Nat × Heap)
  | none => some (0, { h with calls := sbrkCall (moreUnits nu) none :: h.calls })
  | some p =>
    let h := { h with
      calls := sbrkCall (moreUnits nu) (some p) :: h.calls, size := update h.size p (moreUnits nu) }
    (h.free fuel (p + sizeofHeader)).map fun h => (h.freep, h)

/-- A block of `nunits` is taken from `p`, whose predecessor is `prevp`. -/
def take (h : Heap) (nunits prevp p : Nat) : Nat × Heap :=
  if h.size p = nunits then
    (p + sizeofHeader, { h with ptr := update h.ptr prevp (h.ptr p), freep := prevp })
  else
    let rest := h.size p - nunits
    let q := p + sizeofHeader * rest
    (q + sizeofHeader, { h with size := update (update h.size p rest) q nunits, freep := prevp })

/-- The loop of `malloc()`. -/
def search (nunits : Nat) : Nat → List (Option Nat) → Nat → Nat → Heap → Option (Nat × Heap)
  | 0, _, _, _, _ => none
  | fuel + 1, answers, prevp, p, h =>
    if nunits ≤ h.size p then some (h.take nunits prevp p)
    else if p = h.freep then
      match answers with
      | [] => none
      | answer :: answers =>
        match h.morecore fuel nunits answer with
        | none => none
        | some (p, h) => if p = 0 then some (0, h) else search nunits fuel answers p (h.ptr p) h
    else search nunits fuel answers p (h.ptr p) h

theorem search_fits (hp : nunits ≤ h.size p) :
    search nunits (fuel + 1) answers prevp p h = some (h.take nunits prevp p) := by
  rw [search.eq_def]
  exact if_pos hp

theorem search_next (hp : ¬ nunits ≤ h.size p) (hne : p ≠ h.freep) :
    search nunits (fuel + 1) answers prevp p h = search nunits fuel answers p (h.ptr p) h := by
  rw [search.eq_def]
  exact (if_neg hp).trans (if_neg hne)

theorem search_around (hp : ¬ nunits ≤ h.size h.freep) :
    search nunits (fuel + 1) (answer :: answers) prevp h.freep h =
      match h.morecore fuel nunits answer with
      | none => none
      | some (p, h) => if p = 0 then some (0, h) else search nunits fuel answers p (h.ptr p) h := by
  rw [search.eq_def]
  exact (if_neg hp).trans (if_pos rfl)

/-- `malloc()`; `base` is the address of the static header. -/
def malloc (h : Heap) (base fuel nbytes : Nat) (answers : List (Option Nat)) : Option (Nat × Heap) :=
  let nunits := ((nbytes + sizeofHeader - 1) / sizeofHeader + 1) % 2 ^ 32
  let h := if h.freep = 0 then
      { h with ptr := update h.ptr base base, freep := base, size := update h.size base 0 }
    else h
  search nunits fuel answers h.freep (h.ptr h.freep) h

/-! ## More turns -/

theorem place_mono {bp q : Nat} (hp : h.place bp fuel p = some q) : h.place bp (fuel + 1) p = some q := by
  induction fuel generalizing p with
  | zero => cases hp
  | succ fuel ih =>
    rw [place] at hp ⊢
    split at hp
    · rw [if_pos ‹_›, hp]
    · rw [if_neg ‹_›]
      split at hp
      · rw [if_pos ‹_›, hp]
      · rw [if_neg ‹_›]
        exact ih hp

theorem free_mono {h' : Heap} {ap : Nat} (hf : h.free fuel ap = some h') : h.free (fuel + 1) ap = some h' := by
  obtain ⟨p, hp, hh'⟩ := Option.map_eq_some_iff.mp hf
  exact Option.map_eq_some_iff.mpr ⟨p, place_mono hp, hh'⟩

theorem morecore_mono {nu : Nat} (hm : h.morecore fuel nu answer = some r) :
    h.morecore (fuel + 1) nu answer = some r := by
  cases answer with
  | none => exact hm
  | some p =>
    obtain ⟨h', hf, hr⟩ := Option.map_eq_some_iff.mp hm
    exact Option.map_eq_some_iff.mpr ⟨h', free_mono hf, hr⟩

theorem search_mono (hs : search nunits fuel answers prevp p h = some r) :
    search nunits (fuel + 1) answers prevp p h = some r := by
  induction fuel generalizing answers prevp p h with
  | zero => cases hs
  | succ fuel ih =>
    by_cases hp : nunits ≤ h.size p
    · rw [search_fits hp] at hs ⊢
      exact hs
    · by_cases hne : p = h.freep
      · subst hne
        cases answers with
        | nil =>
          rw [search.eq_def] at hs
          have hnone := hs.symm.trans ((if_neg hp).trans (if_pos rfl))
          cases hnone
        | cons answer answers =>
          rw [search_around hp] at hs ⊢
          cases hm : h.morecore fuel nunits answer with
          | none =>
            rw [hm] at hs
            cases hs
          | some r' =>
            rw [hm] at hs
            rw [morecore_mono hm]
            dsimp only at hs ⊢
            split at hs
            · rw [if_pos ‹_›, hs]
            · rw [if_neg ‹_›]
              exact ih hs
      · rw [search_next hp hne] at hs ⊢
        exact ih hs

/-! ## The calls of `sbrk()` -/

theorem free_calls {h' : Heap} {ap : Nat} (hf : h.free fuel ap = some h') : h'.calls = h.calls := by
  obtain ⟨p, -, rfl⟩ := Option.map_eq_some_iff.mp hf
  dsimp only
  rw [joinPrev, joinNext]
  split <;> split <;> rfl

theorem take_calls (h : Heap) (nunits prevp p : Nat) : (h.take nunits prevp p).2.calls = h.calls := by
  rw [take]
  split <;> rfl

theorem morecore_calls {nu : Nat} (hm : h.morecore fuel nu answer = some r) :
    r.2.calls = sbrkCall (moreUnits nu) answer :: h.calls := by
  cases answer with
  | none =>
    cases hm
    rfl
  | some p =>
    obtain ⟨h', hf, rfl⟩ := Option.map_eq_some_iff.mp hm
    exact free_calls hf

theorem search_nil_calls (hs : search nunits fuel [] prevp p h = some r) : r.2.calls = h.calls := by
  induction fuel generalizing prevp p with
  | zero => cases hs
  | succ fuel ih =>
    rw [search.eq_def] at hs
    dsimp only at hs
    split at hs
    · cases hs
      exact take_calls ..
    · split at hs
      · cases hs
      · exact ih hs

end Heap

end Xv6.User
