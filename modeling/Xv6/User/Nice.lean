import Mathlib.Data.Nat.Digits.Defs
import Mathlib.Tactic.Linarith

/-!
# The number parser of `nice`

`parse_nonnegative_int()` of `user/nice.c`. The memory from `text` on is a list of bytes; a read behind its end, and a
result of `int` arithmetic that is no `int`, are undefined behaviour, and then the model is `none`.

* `int` : a result of `int` arithmetic;
* `parseDigits`, `parseNonnegativeInt` : the loop and the function, with what is returned and what `*value` is then;
* `decimal` : the number that a string of digits stands for;
* `parseNonnegativeInt_exact` : exactly the decimal numbers up to `2 ^ 31 - 1` are accepted.
-/

namespace Xv6.User.Nice

variable {n : Nat}

def intMax : Int := 0x7fffffff

/-- A result of `int` arithmetic; `none` if it overflows. -/
def int (x : Int) : Option Int := if -0x80000000 ≤ x ∧ x ≤ intMax then some x else none

def isDigit (c : UInt8) : Bool := '0'.toUInt8 ≤ c ∧ c ≤ '9'.toUInt8

/-- The loop, and the return behind it. -/
def parseDigits (value : Int) : List UInt8 → Int → Option (Int × Int)
  | [], _ => none
  | c :: text, number =>
    if c = 0 then some (0, number)
    else if c < '0'.toUInt8 ∨ '9'.toUInt8 < c then some (-1, value)
    else do
      let digit ← int (c.toNat - '0'.toNat)
      let room ← int (intMax - digit)
      if room.tdiv 10 < number then some (-1, value)
      else
        let tens ← int (number * 10)
        parseDigits value text (← int (tens + digit))

/-- The return value, and `*value` after the call. -/
def parseNonnegativeInt (text : List UInt8) (value : Int) : Option (Int × Int) :=
  match text with
  | [] => none
  | c :: text' => if c = 0 then some (-1, value) else parseDigits value (c :: text') 0

/-! ## What a string of digits stands for -/

def digit (c : UInt8) : Nat := c.toNat - '0'.toNat

def decimal (text : List UInt8) : Nat := Nat.ofDigits 10 (text.map digit).reverse

/-- The number after `n` has been read and `text` follows. -/
def decimalFrom (n : Nat) (text : List UInt8) : Nat := n * 10 ^ text.length + decimal text

theorem decimalFrom_zero (text : List UInt8) : decimalFrom 0 text = decimal text := by simp [decimalFrom]

@[simp] theorem decimalFrom_nil (n : Nat) : decimalFrom n [] = n := by simp [decimalFrom, decimal]

@[simp] theorem decimalFrom_cons (n : Nat) (c : UInt8) (text : List UInt8) :
    decimalFrom n (c :: text) = decimalFrom (n * 10 + digit c) text := by
  have hlast : decimal (c :: text) = decimal text + 10 ^ text.length * digit c := by
    rw [decimal, List.map_cons, List.reverse_cons, Nat.ofDigits_append, Nat.ofDigits_singleton, List.length_reverse,
      List.length_map, decimal]
  rw [decimalFrom, decimalFrom, hlast, List.length_cons]
  ring

theorem le_decimalFrom (n : Nat) (text : List UInt8) : n ≤ decimalFrom n text :=
  (Nat.le_mul_of_pos_right n (Nat.pow_pos (by decide))).trans (Nat.le_add_right _ _)

/-! ## The loop -/

theorem int_of_le {x : Int} (h0 : 0 ≤ x) (h1 : x ≤ intMax) : int x = some x :=
  if_pos ⟨by omega, h1⟩

theorem isDigit_iff (c : UInt8) : isDigit c ↔ 48 ≤ c.toNat ∧ c.toNat ≤ 57 := by
  rw [isDigit, decide_eq_true_eq, UInt8.le_iff_toNat_le, UInt8.le_iff_toNat_le]
  exact Iff.rfl

theorem outside_iff (c : UInt8) : (c < '0'.toUInt8 ∨ '9'.toUInt8 < c) ↔ ¬isDigit c := by
  rw [isDigit, decide_eq_true_eq, not_and_or, UInt8.not_le, UInt8.not_le]

/-- The guard lets a digit pass exactly when the number with it is an `int`. -/
theorem room_iff {d : Nat} (hd : d ≤ 9) : (intMax - d : Int).tdiv 10 < n ↔ intMax < (n * 10 + d : Nat) := by
  have hroom : (0 : Int) ≤ intMax - d := by
    unfold intMax
    omega
  rw [Int.tdiv_eq_ediv_of_nonneg hroom]
  unfold intMax
  omega

/-- One digit. -/
theorem parseDigits_digit {value : Int} {c : UInt8} {text : List UInt8} (hc : isDigit c) :
    parseDigits value (c :: text) n =
      if intMax < (n * 10 + digit c : Nat) then some (-1, value)
        else parseDigits value text (n * 10 + digit c : Nat) := by
  obtain ⟨hlo, hhi⟩ := (isDigit_iff c).mp hc
  have hd : digit c ≤ 9 := by
    show c.toNat - 48 ≤ 9
    omega
  have hne : c ≠ 0 := by
    rintro rfl
    simp at hlo
  have hin : ¬(c < '0'.toUInt8 ∨ '9'.toUInt8 < c) := fun h => (outside_iff c).mp h hc
  have hdigit : int ((c.toNat : Int) - '0'.toNat) = some (digit c : Int) := by
    have heq : ((c.toNat : Int) - '0'.toNat) = (digit c : Int) := by
      show ((c.toNat : Int) - (48 : Nat)) = ((c.toNat - 48 : Nat) : Int)
      omega
    rw [heq]
    exact int_of_le (by omega) (by unfold intMax; omega)
  have hroom : int (intMax - digit c) = some (intMax - digit c : Int) :=
    int_of_le (by unfold intMax; omega) (by omega)
  rw [parseDigits, if_neg hne, if_neg hin, hdigit, Option.bind_eq_bind, Option.bind_some, hroom, Option.bind_some]
  by_cases hover : intMax < (n * 10 + digit c : Nat)
  · rw [if_pos ((room_iff hd).mpr hover), if_pos hover]
  · have hfits : ((n * 10 + digit c : Nat) : Int) ≤ intMax := by omega
    rw [if_neg (fun h => hover ((room_iff hd).mp h)), if_neg hover,
      int_of_le (by omega) (by push_cast at hfits; omega), Option.bind_some,
      int_of_le (by omega) (by push_cast at hfits; omega), Option.bind_some]
    push_cast
    rfl

/-- The digits are read one by one; the number so far is never above `2 ^ 31 - 1`. -/
theorem parseDigits_exact (value : Int) (rest : List UInt8) {text : List UInt8} (h0 : 0 ∉ text)
    (hn : (n : Int) ≤ intMax) :
    parseDigits value (text ++ 0 :: rest) n =
      some (if text.all isDigit ∧ (decimalFrom n text : Int) ≤ intMax then (0, (decimalFrom n text : Int))
        else (-1, value)) := by
  induction text generalizing n with
  | nil => simp [parseDigits, hn]
  | cons c text ih =>
    rw [List.mem_cons, not_or] at h0
    obtain ⟨hc0, htext⟩ := h0
    by_cases hc : isDigit c
    · rw [List.cons_append, parseDigits_digit hc, decimalFrom_cons]
      by_cases hover : intMax < (n * 10 + digit c : Nat)
      · have hle := le_decimalFrom (n * 10 + digit c) text
        have hbig : ¬(decimalFrom (n * 10 + digit c) text : Int) ≤ intMax := by omega
        rw [if_pos hover, if_neg (fun h => hbig h.2)]
      · rw [if_neg hover, ih htext (by omega)]
        simp [hc]
    · rw [List.cons_append, parseDigits, if_neg (Ne.symm hc0), if_pos ((outside_iff c).mpr hc), if_neg]
      intro h
      exact hc (List.all_eq_true.mp h.1 c (List.mem_cons_self ..))

/-- **`parse_nonnegative_int()` is exact.** It returns 0, with the number in `*value`, for a non-empty string of digits
that stands for at most `2 ^ 31 - 1`, and -1, with `*value` as before, for any other; no `int` overflows on the way. -/
theorem parseNonnegativeInt_exact (text rest : List UInt8) (h0 : 0 ∉ text) (value : Int) :
    (text ≠ [] ∧ text.all isDigit ∧ decimal text ≤ 2 ^ 31 - 1 →
      parseNonnegativeInt (text ++ 0 :: rest) value = some (0, (decimal text : Int))) ∧
    (¬(text ≠ [] ∧ text.all isDigit ∧ decimal text ≤ 2 ^ 31 - 1) →
      parseNonnegativeInt (text ++ 0 :: rest) value = some (-1, value)) := by
  cases text with
  | nil => simp [parseNonnegativeInt]
  | cons c text =>
    have hc0 : c ≠ 0 := fun h => h0 (h ▸ List.mem_cons_self ..)
    have hmax : (decimal (c :: text) : Int) ≤ intMax ↔ decimal (c :: text) ≤ 2 ^ 31 - 1 := by
      unfold intMax
      omega
    have hloop := parseDigits_exact value rest h0 (n := 0) (by decide)
    rw [decimalFrom_zero, List.cons_append] at hloop
    rw [List.cons_append, parseNonnegativeInt, if_neg hc0]
    constructor
    · rintro ⟨_, hdigits, hle⟩
      exact hloop.trans (congrArg some (if_pos ⟨hdigits, hmax.mpr hle⟩))
    · intro hnot
      exact hloop.trans (congrArg some (if_neg fun h => hnot ⟨List.cons_ne_nil c text, h.1, hmax.mp h.2⟩))

theorem parseNonnegativeInt_exact_leadingZero :
    parseNonnegativeInt ((['0', '2', '1', '4', '7', '4', '8', '3', '6', '4', '7'].map Char.toUInt8) ++ [0]) 7 =
      some (0, 2147483647) :=
  (parseNonnegativeInt_exact _ [] (by decide) 7).1 ⟨by decide, by decide, by decide⟩

end Xv6.User.Nice
