import Mathlib.Data.BitVec
import Xv6.Lib.Fuel
import Xv6.Lib.Numeral

/-!
# Printing integers

`printint()` of `kernel/printk.c` and of `user/printf.c`: the digits come off `x` by division, from the last to the
first, into a buffer of 20 bytes, and are put out from the end of it. A 64-bit word is a `BitVec 64`; an access outside
an array is a fault, and a loop is given a number of turns.

* `putDigits`, `putBack`, `emit` : the part that both functions have;
* `Kernel.printint`, `User.printint` : the functions of the source, with the characters they put out;
* `readBack`, `Canonical` : the number that a text stands for, and how a number is written;
* `printint_exact` : both end, inside the buffer, and write the number canonically.
-/

namespace Xv6.Print

open Numeral (numeral)
open Fuel (Returns)

variable {i : Nat} {sign : Bool}

inductive Fault
  | outOfBounds
deriving DecidableEq

abbrev Prints (A : Type) := ExceptT Fault Option A

/-- `char buf[20]` -/
abbrev Buf := Vector UInt8 20

def store (buf : Buf) (i : Nat) (c : UInt8) : Prints Buf :=
  if h : i < 20 then pure (buf.set i c h) else throw .outOfBounds

def load (a : List UInt8) (i : Nat) : Prints UInt8 :=
  match a[i]? with
  | some c => pure c
  | none => throw .outOfBounds

def minus : UInt8 := '-'.toUInt8

/-- `do { buf[i++] = digits[x % base]; } while ((x /= base) != 0)` -/
def putDigits (digits : List UInt8) (base : BitVec 64) : Nat → Buf → Nat → BitVec 64 → Prints (Buf × Nat)
  | 0, _, _, _ => none
  | fuel + 1, buf, i, x => do
    let c ← load digits (x % base).toNat
    let buf ← store buf i c
    if x / base ≠ 0 then putDigits digits base fuel buf (i + 1) (x / base) else pure (buf, i + 1)

/-- `while (--i >= 0) putc(buf[i])`, with what has been put out. -/
def putBack (buf : Buf) : Nat → List UInt8 → Prints (List UInt8)
  | 0, out => pure out
  | i + 1, out => do
    let c ← load buf.toList i
    putBack buf i (out ++ [c])

/-- `if (sign) buf[i++] = '-'` -/
def putSign (buf : Buf) (i : Nat) (sign : Bool) : Prints (Buf × Nat) :=
  if sign then do
    let buf ← store buf i minus
    pure (buf, i + 1)
  else pure (buf, i)

/-- What is left of `printint()` when `x` and the sign are known. -/
def emit (digits : List UInt8) (fuel : Nat) (buf : Buf) (x : BitVec 64) (base : Int) (sign : Bool) :
    Prints (List UInt8) := do
  let r ← putDigits digits (BitVec.ofInt 64 base) fuel buf 0 x
  let r ← putSign r.1 r.2 sign
  putBack r.1 r.2 []

namespace Kernel

/-- `"0123456789abcdef"`, with its NUL. -/
def digits : List UInt8 :=
  ['0', '1', '2', '3', '4', '5', '6', '7', '8', '9', 'a', 'b', 'c', 'd', 'e', 'f', '\x00'].map Char.toUInt8

def printint (fuel : Nat) (buf : Buf) (xx : BitVec 64) (base sign : Int) : Prints (List UInt8) :=
  -- `sign && (sign = (xx < 0))` sets the sign only where it was set
  let sign : Int := if sign ≠ 0 then (if xx.toInt < 0 then 1 else 0) else sign
  let x := if sign ≠ 0 then -xx else xx
  emit digits fuel buf x base (sign ≠ 0)

end Kernel

namespace User

/-- `"0123456789ABCDEF"`, with its NUL. -/
def digits : List UInt8 :=
  ['0', '1', '2', '3', '4', '5', '6', '7', '8', '9', 'A', 'B', 'C', 'D', 'E', 'F', '\x00'].map Char.toUInt8

def printint (fuel : Nat) (buf : Buf) (xx : BitVec 64) (base sgn : Int) : Prints (List UInt8) :=
  if sgn ≠ 0 ∧ xx.toInt < 0 then emit digits fuel buf (-xx) base true else emit digits fuel buf xx base false

end User

/-! ## The loops -/

theorem load_eq {a : List UInt8} (h : i < a.length) : load a i = pure (a.getD i 0) := by
  rw [load, List.getElem?_eq_getElem h, List.getD_eq_getElem?_getD, List.getElem?_eq_getElem h]
  rfl

theorem take_getD {a : List UInt8} (h : i < a.length) : a.take (i + 1) = a.take i ++ [a.getD i 0] := by
  rw [List.take_add_one, List.getD_eq_getElem?_getD, List.getElem?_eq_getElem h]
  rfl

/-- A store behind what the buffer holds adds to it. -/
theorem take_set (buf : Buf) (c : UInt8) (h : i < 20) :
    (buf.set i c h).toList.take (i + 1) = buf.toList.take i ++ [c] := by
  have hlen : i < (buf.toList.set i c).length := by simpa using h
  rw [Vector.toList_set, take_getD hlen, List.take_set_of_le (Nat.le_refl i), List.getD_eq_getElem?_getD,
    List.getElem?_eq_getElem hlen, List.getElem_set_self]
  rfl

section
variable {letters : List UInt8} {base : BitVec 64}

theorem putDigits_turn (h1 : 1 < base.toNat) (hl : base.toNat ≤ letters.length) (fuel : Nat) (x : BitVec 64) (buf : Buf)
    {i : Nat} (hi : i < 20) :
    putDigits letters base (fuel + 1) buf i x =
      if x / base ≠ 0 then putDigits letters base fuel (buf.set i (letters.getD (x.toNat % base.toNat) 0) hi)
        (i + 1) (x / base)
      else pure (buf.set i (letters.getD (x.toNat % base.toNat) 0) hi, i + 1) := by
  have hdigit : x.toNat % base.toNat < letters.length := (Nat.mod_lt _ (by omega)).trans_le hl
  rw [putDigits, BitVec.toNat_umod, load_eq hdigit, pure_bind, store, dif_pos hi, pure_bind]

/-- The digits go into the buffer from `i` on, least significant first. -/
theorem putDigits_returns (h1 : 1 < base.toNat) (hl : base.toNat ≤ letters.length) (x : BitVec 64) (buf : Buf) (i : Nat)
    (hroom : i + (numeral base.toNat x.toNat).length ≤ 20) :
    ∃ buf' : Buf, Returns (fun fuel => putDigits letters base fuel buf i x)
        (.ok (buf', i + (numeral base.toNat x.toNat).length)) ∧
      buf'.toList.take (i + (numeral base.toNat x.toNat).length) =
        buf.toList.take i ++ (numeral base.toNat x.toNat).map fun d => letters.getD d 0 := by
  -- the number falls with every division
  induction hx : x.toNat using Nat.strong_induction_on generalizing x buf i with
  | _ n ih =>
    subst hx
    have hstep := Numeral.numeral_eq h1 x.toNat
    rw [← BitVec.toNat_udiv] at hstep
    have hi : i < 20 := by
      rw [hstep, List.length_cons] at hroom
      omega
    have htake := take_set buf (letters.getD (x.toNat % base.toNat) 0) hi
    by_cases hq : x / base = 0
    · have hq' : (x / base).toNat = 0 := by
        rw [hq]
        rfl
      rw [if_pos hq'] at hstep
      rw [hstep]
      refine ⟨_, (Returns.const _).turn fun fuel => ?_, htake⟩
      rw [putDigits_turn h1 hl fuel x buf hi, if_neg (not_not.mpr hq)]
      rfl
    · have hq' : (x / base).toNat ≠ 0 := fun h => hq (BitVec.eq_of_toNat_eq h)
      rw [if_neg hq'] at hstep
      have hlt : (x / base).toNat < x.toNat := by
        rw [BitVec.toNat_udiv] at hq' ⊢
        exact Nat.div_lt_self (Nat.pos_of_ne_zero fun h => hq' (by rw [h, Nat.zero_div])) h1
      rw [hstep, List.length_cons] at hroom
      obtain ⟨buf', hrest, htake'⟩ := ih _ hlt (x / base) (buf.set i _ hi) (i + 1) (by omega) rfl
      rw [hstep, List.length_cons, ← Nat.add_assoc, Nat.add_right_comm]
      refine ⟨buf', hrest.turn fun fuel => ?_, ?_⟩
      · rw [putDigits_turn h1 hl fuel x buf hi, if_pos hq]
      · rw [htake', htake, List.map_cons, List.append_assoc, List.singleton_append]

end

/-- What the buffer holds is put out backwards. -/
theorem putBack_eq (buf : Buf) (hi : i ≤ 20) (out : List UInt8) :
    putBack buf i out = pure (out ++ (buf.toList.take i).reverse) := by
  induction i generalizing out with
  | zero => simp [putBack]
  | succ i ih =>
    have hlen : i < buf.toList.length := by simpa using hi
    rw [putBack, load_eq hlen, pure_bind, ih (by omega), take_getD hlen, List.reverse_append, List.reverse_singleton,
      List.append_assoc]

/-- The sign goes behind the digits. -/
theorem putSign_eq (buf : Buf) (hi : i + (if sign then 1 else 0) ≤ 20) :
    ∃ buf' : Buf, putSign buf i sign = pure (buf', i + if sign then 1 else 0) ∧
      buf'.toList.take (i + if sign then 1 else 0) = buf.toList.take i ++ if sign then [minus] else [] := by
  cases sign with
  | false => exact ⟨buf, rfl, (List.append_nil _).symm⟩
  | true =>
    have hi' : i < 20 := hi
    refine ⟨buf.set i minus hi', ?_, take_set buf minus hi'⟩
    rw [putSign, if_pos rfl, store, dif_pos hi', pure_bind]
    rfl

/-- The sign and the digits, most significant first. -/
def written (letters : List UInt8) (base n : Nat) (sign : Bool) : List UInt8 :=
  (if sign then [minus] else []) ++ (numeral base n).reverse.map fun d => letters.getD d 0

theorem emit_returns {letters : List UInt8} {base : Nat} (h1 : 1 < base) (hl : base ≤ letters.length)
    (h64 : base < 2 ^ 64) (buf : Buf) (x : BitVec 64)
    (hroom : (numeral base x.toNat).length + (if sign then 1 else 0) ≤ 20) :
    Returns (fun fuel => emit letters fuel buf x base sign) (.ok (written letters base x.toNat sign)) := by
  have hbase : (BitVec.ofInt 64 (base : Int)).toNat = base := by
    rw [BitVec.ofInt_natCast, BitVec.toNat_ofNat, Nat.mod_eq_of_lt h64]
  obtain ⟨buf₁, ⟨n, hdigits⟩, htake₁⟩ :=
    @putDigits_returns letters (BitVec.ofInt 64 (base : Int)) (by omega) (by omega) x
    buf 0 (by rw [hbase]; omega)
  rw [hbase, Nat.zero_add] at hdigits htake₁
  obtain ⟨buf₂, hsign, htake₂⟩ := putSign_eq buf₁ hroom
  refine ⟨n, fun fuel hfuel => ?_⟩
  have hloop : putDigits letters (BitVec.ofInt 64 (base : Int)) fuel buf 0 x =
      pure (buf₁, (numeral base x.toNat).length) :=
    hdigits fuel hfuel
  have hemit : emit letters fuel buf x base sign = pure (written letters base x.toNat sign) := by
    rw [emit, hloop, pure_bind, hsign, pure_bind, putBack_eq buf₂ hroom, htake₂, htake₁]
    cases sign <;> simp [written]
  exact hemit

/-! ## How a number is written -/

/-- The digit that a letter of either case stands for. -/
def digitValue (c : UInt8) : Nat :=
  if c ≤ '9'.toUInt8 then c.toNat - '0'.toNat
  else if 'a'.toUInt8 ≤ c then c.toNat - 'a'.toNat + 10
  else c.toNat - 'A'.toNat + 10

/-- The number that a text of digits stands for. -/
def readDigits (base : Nat) (out : List UInt8) : Nat := Nat.ofDigits base (out.map digitValue).reverse

/-- The number that a text stands for, with a sign or without. -/
def readBack (base : Nat) (out : List UInt8) : Int :=
  if out.head? = some minus then -(readDigits base out.tail : Int) else readDigits base out

/-- The letters of a base are told from each other and from the sign. -/
structure Letters (letters : List UInt8) : Prop where
  many : 16 ≤ letters.length
  value : ∀ d < 16, digitValue (letters.getD d 0) = d
  unsigned : ∀ d < 16, letters.getD d 0 ≠ minus

theorem kernel_letters : Letters Kernel.digits := ⟨by decide, by decide, by decide⟩

theorem user_letters : Letters User.digits := ⟨by decide, by decide, by decide⟩

section
variable {letters : List UInt8} {base : Nat}

/-- Digits are read back. -/
theorem Letters.digitValue_map (hL : Letters letters) {ds : List Nat} (hds : ∀ d ∈ ds, d < 16) :
    (ds.map fun d => letters.getD d 0).map digitValue = ds := by
  rw [List.map_map]
  exact (List.map_congr_left fun d hd => hL.value d (hds d hd)).trans (List.map_id ds)

theorem readBack_written (hL : Letters letters) (h1 : 1 < base) (h16 : base ≤ 16) (n : Nat) (sign : Bool) :
    readBack base (written letters base n sign) = if sign then -(n : Int) else n := by
  have hds : ∀ d ∈ (numeral base n).reverse, d < 16 := fun d hd =>
    (Numeral.lt_of_mem_numeral h1 (List.mem_reverse.mp hd)).trans_le h16
  have hread : readDigits base ((numeral base n).reverse.map fun d => letters.getD d 0) = n := by
    rw [readDigits, hL.digitValue_map hds, List.reverse_reverse, Numeral.ofDigits_numeral]
  cases sign with
  | true =>
    show -(readDigits base ((numeral base n).reverse.map fun d => letters.getD d 0) : Int) = -n
    rw [hread]
  | false =>
    have hhead : ((numeral base n).reverse.map fun d => letters.getD d 0).head? ≠ some minus := by
      rw [List.head?_map]
      intro h
      obtain ⟨d, hd, hminus⟩ := Option.map_eq_some_iff.mp h
      exact hL.unsigned d (hds d (List.mem_of_head? hd)) hminus
    show readBack base ((numeral base n).reverse.map fun d => letters.getD d 0) = n
    rw [readBack, if_neg hhead, hread]

end

/-- `out` is the number `v` in the base: a sign if it is negative, then its digits, without leading zeros; read back in
the base it gives the number. -/
structure Canonical (letters : List UInt8) (base : Nat) (v : Int) (out : List UInt8) : Prop where
  text : out = (if v < 0 then [minus] else []) ++ (numeral base v.natAbs).reverse.map fun d => letters.getD d 0
  digits : ∀ d ∈ numeral base v.natAbs, d < base
  leading : (numeral base v.natAbs).getLast? = some 0 → v = 0
  value : readBack base out = v

/-- The number that the argument is, signed or not. -/
def argument (xx : BitVec 64) (sign : Int) : Int := if sign ≠ 0 then xx.toInt else xx.toNat

theorem argument_neg (xx : BitVec 64) (sign : Int) : argument xx sign < 0 ↔ sign ≠ 0 ∧ xx.toInt < 0 := by
  by_cases hs : sign = 0
  · simp [argument, hs]
  · simp [argument, hs]

theorem argument_ge (xx : BitVec 64) (sign : Int) : -2 ^ 63 ≤ argument xx sign := by
  rw [argument]
  split
  · exact BitVec.le_toInt xx
  · omega

/-- The word that is divided: negation wraps to the magnitude, for `-2 ^ 63` too. -/
theorem toNat_magnitude (xx : BitVec 64) (sign : Int) :
    (if argument xx sign < 0 then -xx else xx).toNat = (argument xx sign).natAbs := by
  have hlt := xx.isLt
  have hint := BitVec.toInt_eq_toNat_cond xx
  by_cases hneg : argument xx sign < 0
  · obtain ⟨hs, hxx⟩ := (argument_neg xx sign).mp hneg
    rw [if_pos hneg, BitVec.toNat_neg, argument, if_pos hs]
    split at hint <;> omega
  · rw [if_neg hneg]
    rw [argument] at hneg ⊢
    split <;> rename_i hs
    · rw [if_pos hs] at hneg
      split at hint <;> omega
    · omega

theorem Kernel.printint_eq (fuel : Nat) (buf : Buf) (xx : BitVec 64) (base sign : Int) :
    Kernel.printint fuel buf xx base sign =
      emit Kernel.digits fuel buf (if argument xx sign < 0 then -xx else xx) base (argument xx sign < 0) := by
  by_cases hs : sign = 0
  · simp [Kernel.printint, argument_neg, hs]
  · by_cases hxx : xx.toInt < 0
    · simp [Kernel.printint, argument_neg, hs, hxx]
    · simp [Kernel.printint, argument_neg, hs, hxx]

theorem User.printint_eq (fuel : Nat) (buf : Buf) (xx : BitVec 64) (base sgn : Int) :
    User.printint fuel buf xx base sgn =
      emit User.digits fuel buf (if argument xx sgn < 0 then -xx else xx) base (argument xx sgn < 0) := by
  by_cases hneg : sgn ≠ 0 ∧ xx.toInt < 0
  · simp [User.printint, argument_neg, hneg]
  · simp [User.printint, argument_neg, hneg]

def toLower (c : UInt8) : UInt8 := if 'A'.toUInt8 ≤ c ∧ c ≤ 'Z'.toUInt8 then c + 32 else c

/-- The digits fit into the buffer, and with them the sign where there is one. -/
theorem length_numeral_room {base n : Nat} (hbase : base = 10 ∨ base = 16) (hn : n < 2 ^ 64)
    (hsign : sign → n ≤ 2 ^ 63) : (numeral base n).length + (if sign then 1 else 0) ≤ 20 := by
  have h20 : (numeral base n).length ≤ 20 :=
    Numeral.length_numeral_le (by omega) (by decide) (by rcases hbase with rfl | rfl <;> omega)
  cases sign with
  | false => exact h20
  | true =>
    have hn' := hsign rfl
    have h19 : (numeral base n).length ≤ 19 :=
      Numeral.length_numeral_le (by omega) (by decide) (by rcases hbase with rfl | rfl <;> omega)
    exact Nat.succ_le_succ h19

/-- Whatever the sign is, the part that both functions have writes `x` canonically. -/
theorem emit_canonical {letters : List UInt8} (hL : Letters letters) {base : Nat} (hbase : base = 10 ∨ base = 16)
    (buf : Buf) {x : BitVec 64} {v : Int} (hsign : sign = decide (v < 0)) (hx : x.toNat = v.natAbs) (hv : -2 ^ 63 ≤ v) :
    Returns (fun fuel => emit letters fuel buf x base sign) (.ok (written letters base v.natAbs (decide (v < 0)))) ∧
      Canonical letters base v (written letters base v.natAbs (decide (v < 0))) := by
  have h1 : 1 < base := by omega
  have h16 : base ≤ 16 := by omega
  have hlt := x.isLt
  constructor
  · rw [← hsign, ← hx]
    refine emit_returns h1 (h16.trans hL.many) (by omega) buf x (length_numeral_room hbase hlt fun h => ?_)
    have hneg : v < 0 := of_decide_eq_true (hsign ▸ h)
    omega
  · refine ⟨?_, fun d => Numeral.lt_of_mem_numeral h1, fun h => ?_, ?_⟩
    · simp [written]
    · have h0 := Numeral.getLast?_numeral h
      omega
    · rw [readBack_written hL h1 h16]
      by_cases hneg : v < 0
      · rw [if_pos (decide_eq_true hneg)]
        omega
      · rw [if_neg (by simpa using hneg)]
        omega

theorem written_toLower {base : Nat} (h1 : 1 < base) (h16 : base ≤ 16) (n : Nat) (sign : Bool) :
    (written User.digits base n sign).map toLower = written Kernel.digits base n sign := by
  have hcase : ∀ d < 16, toLower (User.digits.getD d 0) = Kernel.digits.getD d 0 := by decide
  have hdigits : ((numeral base n).reverse.map fun d => User.digits.getD d 0).map toLower =
      (numeral base n).reverse.map fun d => Kernel.digits.getD d 0 := by
    rw [List.map_map]
    refine List.map_congr_left fun d hd => hcase d ?_
    exact (Numeral.lt_of_mem_numeral h1 (List.mem_reverse.mp hd)).trans_le h16
  have hminus : toLower minus = minus := by decide
  rw [written, written, List.map_append, hdigits]
  cases sign <;> simp [hminus]

/-- **Integers are printed exactly and inside the buffer.** For every word, in base 10 or 16, signed or not, both
functions end without a fault; each writes the number canonically, with its own letters, and the two texts differ in the
case of letters only. -/
theorem printint_exact (kbuf ubuf : Buf) (xx : BitVec 64) (base : Nat) (hbase : base = 10 ∨ base = 16) (sign : Int) :
    ∃ kout uout, Returns (fun fuel => Kernel.printint fuel kbuf xx base sign) (.ok kout) ∧
      Returns (fun fuel => User.printint fuel ubuf xx base sign) (.ok uout) ∧
      Canonical Kernel.digits base (argument xx sign) kout ∧ Canonical User.digits base (argument xx sign) uout ∧
      uout.map toLower = kout := by
  have hx := toNat_magnitude xx sign
  have hv := argument_ge xx sign
  obtain ⟨hkernel, hkcanonical⟩ := emit_canonical kernel_letters hbase kbuf rfl hx hv
  obtain ⟨huser, hucanonical⟩ := emit_canonical user_letters hbase ubuf rfl hx hv
  refine ⟨_, _, ?_, ?_, hkcanonical, hucanonical, written_toLower (by omega) (by omega) _ _⟩
  · simpa only [Kernel.printint_eq] using hkernel
  · simpa only [User.printint_eq] using huser

/-- The most negative word fills the buffer. -/
theorem printint_exact_minimum :
    ∃ kout uout, Returns (fun fuel => Kernel.printint fuel (Vector.replicate 20 0) (BitVec.intMin 64) 10 1) (.ok kout) ∧
      Returns (fun fuel => User.printint fuel (Vector.replicate 20 0) (BitVec.intMin 64) 10 1) (.ok uout) ∧
      Canonical Kernel.digits 10 (-2 ^ 63) kout ∧ Canonical User.digits 10 (-2 ^ 63) uout ∧ uout.map toLower = kout :=
  printint_exact (Vector.replicate 20 0) (Vector.replicate 20 0) (BitVec.intMin 64) 10 (Or.inl rfl) 1

end Xv6.Print
