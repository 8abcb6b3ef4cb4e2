import Mathlib.Data.Nat.Digits.Lemmas

/-!
# Numerals

* `numeral b n` : the digits of `n` in base `b`, least significant first, and one digit for zero;
* `numeral_eq` : the digits come off one by one by division;
* `length_numeral_le`, `lt_of_mem_numeral`, `ofDigits_numeral`, `getLast?_numeral` : how many there are, that they are
  digits, that they stand for `n`, and that none is a leading zero.
-/

namespace Numeral

def numeral (b n : Nat) : List Nat := if n = 0 then [0] else b.digits n

section
variable {b n : Nat}

theorem numeral_eq (hb : 1 < b) (n : Nat) :
    numeral b n = n % b :: if n / b = 0 then [] else numeral b (n / b) := by
  by_cases hn : n = 0
  · simp [numeral, hn]
  · rw [numeral, if_neg hn, Nat.digits_def' hb (Nat.pos_of_ne_zero hn)]
    by_cases hq : n / b = 0
    · rw [hq, if_pos rfl, Nat.digits_zero]
    · rw [if_neg hq, numeral, if_neg hq]

theorem length_numeral_le (hb : 1 < b) {k : Nat} (hk : 0 < k) (hn : n < b ^ k) : (numeral b n).length ≤ k := by
  by_cases h0 : n = 0
  · rw [numeral, if_pos h0]
    exact hk
  · rw [numeral, if_neg h0]
    exact (Nat.digits_length_le_iff hb n).mpr hn

theorem lt_of_mem_numeral (hb : 1 < b) {d : Nat} (hd : d ∈ numeral b n) : d < b := by
  by_cases h0 : n = 0
  · rw [numeral, if_pos h0, List.mem_singleton] at hd
    omega
  · rw [numeral, if_neg h0] at hd
    exact Nat.digits_lt_base hb hd

theorem ofDigits_numeral : Nat.ofDigits b (numeral b n) = n := by
  by_cases h0 : n = 0
  · simp [numeral, h0]
  · rw [numeral, if_neg h0, Nat.ofDigits_digits]

/-- Only zero has a leading zero. -/
theorem getLast?_numeral (h : (numeral b n).getLast? = some 0) : n = 0 := by
  by_contra h0
  rw [numeral, if_neg h0, List.getLast?_eq_some_getLast (Nat.digits_ne_nil_iff_ne_zero.mpr h0)] at h
  exact Nat.getLast_digit_ne_zero b h0 (Option.some.inj h)

end

end Numeral
