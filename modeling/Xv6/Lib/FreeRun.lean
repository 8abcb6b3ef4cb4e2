import Mathlib.Data.Nat.ModEq
import Mathlib.Logic.Function.Basic

/-!
# Rings with free-running counters

A ring of `N` cells is indexed by counters that are only ever advanced and wrap at `2 ^ w`; a counter that has been
advanced `k` times is `BitVec.ofNat w k`, and its cell is the counter modulo `N`, where `N` divides `2 ^ w`.

* `Holds buf N k xs` : the cells from position `k` on hold the list `xs`;
* `Holds.push`, `Holds.pop`, `Holds.take` : an element is stored after the last one, the first one is consumed, the
  last ones are given up;
* `ofNat_eq_add_iff`, `toNat_sub_ofNat`, `toNat_mod_ofNat` : how such counters compare.
-/

namespace FreeRun
open Function

/-! ## Counters -/

section Counters
variable {w N k j : Nat}

theorem ofNat_eq_add_iff (hj : j < 2 ^ w) : BitVec.ofNat w (k + j) = BitVec.ofNat w k ↔ j = 0 := by
  constructor
  · intro h
    have hval := congrArg BitVec.toNat h
    rw [BitVec.toNat_ofNat, BitVec.toNat_ofNat] at hval
    have hmod : k + j ≡ k + 0 [MOD 2 ^ w] := hval
    have hzero : j ≡ 0 [MOD 2 ^ w] := Nat.ModEq.add_left_cancel' k hmod
    rwa [Nat.ModEq, Nat.zero_mod, Nat.mod_eq_of_lt hj] at hzero
  · rintro rfl
    rfl

/-- The ring is full when the counters are `N` apart. -/
theorem ofNat_eq_add_size_iff (hj : j ≤ N) (hN : N < 2 ^ w) :
    BitVec.ofNat w (k + j) = BitVec.ofNat w k + BitVec.ofNat w N ↔ j = N := by
  rw [← BitVec.ofNat_add, show k + N = k + j + (N - j) by omega, eq_comm, ofNat_eq_add_iff (by omega)]
  omega

theorem toNat_sub_ofNat (hj : j < 2 ^ w) : (BitVec.ofNat w (k + j) - BitVec.ofNat w k).toNat = j := by
  rw [BitVec.ofNat_add, BitVec.add_comm, BitVec.add_sub_cancel, BitVec.toNat_ofNat, Nat.mod_eq_of_lt hj]

theorem ofNat_succ_sub_one : BitVec.ofNat w (k + 1) - 1 = BitVec.ofNat w k := by
  rw [BitVec.ofNat_add]
  exact BitVec.add_sub_cancel _ _

theorem toNat_mod_ofNat (hdvd : N ∣ 2 ^ w) : (BitVec.ofNat w k).toNat % N = k % N := by
  rw [BitVec.toNat_ofNat, Nat.mod_mod_of_dvd k hdvd]

end Counters

/-! ## Cells -/

section Cells
variable {A : Type*} {buf : Nat → A} {N k : Nat} {x : A} {xs ys : List A}

def Holds (buf : Nat → A) (N k : Nat) (xs : List A) : Prop :=
  ∀ j x, xs[j]? = some x → buf ((k + j) % N) = x

theorem Holds.nil (buf : Nat → A) (N k : Nat) : Holds buf N k [] := by
  intro j x h
  rw [List.getElem?_nil] at h
  cases h

/-- Two positions less than `N` apart have different cells. -/
theorem cell_ne {a b : Nat} (hab : a < b) (hb : b < a + N) : a % N ≠ b % N := by
  intro h
  have hmod : a + 0 ≡ a + (b - a) [MOD N] := by
    rw [Nat.ModEq, Nat.add_zero, show a + (b - a) = b by omega]
    exact h
  have hzero := Nat.ModEq.add_left_cancel' a hmod
  rw [Nat.ModEq, Nat.zero_mod, Nat.mod_eq_of_lt (by omega)] at hzero
  omega

theorem Holds.push (h : Holds buf N k xs) (hlen : xs.length < N) :
    Holds (update buf ((k + xs.length) % N) x) N k (xs ++ [x]) := by
  intro j y hj
  rcases Nat.lt_trichotomy j xs.length with hlt | rfl | hgt
  · rw [List.getElem?_append_left hlt] at hj
    rw [update_of_ne (cell_ne (by omega) (by omega))]
    exact h j y hj
  · rw [List.getElem?_concat_length] at hj
    rw [update_self]
    exact Option.some.inj hj
  · rw [List.getElem?_eq_none (by rw [List.length_append, List.length_singleton]; omega)] at hj
    cases hj

theorem Holds.head (h : Holds buf N k (x :: xs)) : buf (k % N) = x := h 0 x rfl

theorem Holds.last (h : Holds buf N k (xs ++ [x])) : buf ((k + xs.length) % N) = x :=
  h xs.length x List.getElem?_concat_length

theorem Holds.pop (h : Holds buf N k (x :: xs)) : Holds buf N (k + 1) xs := by
  intro j y hj
  rw [show k + 1 + j = k + (j + 1) by omega]
  exact h (j + 1) y hj

theorem Holds.take (h : Holds buf N k (xs ++ ys)) : Holds buf N k xs := by
  intro j y hj
  have hlt : j < xs.length := (List.getElem?_eq_some_iff.mp hj).1
  exact h j y (by rwa [List.getElem?_append_left hlt])

end Cells

end FreeRun
