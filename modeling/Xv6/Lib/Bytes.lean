import Mathlib.Data.Nat.Basic
import Mathlib.Tactic.Ring

/-!
# Little-endian numbers in byte arrays

* `le f n` : the number that the first `n` bytes of `f` are;
* `byte w i` : byte `i` of the number `w`;
* `mask k` : the byte whose only bit is bit `k`, to test, set and clear that bit (`or_mask`, `not_mask`).
-/

namespace Bytes

variable {k : Nat} {x : UInt8}

def le (f : Nat → UInt8) : Nat → Nat
  | 0 => 0
  | n + 1 => le f n + (f n).toNat * 256 ^ n

def byte (w i : Nat) : UInt8 := UInt8.ofNat (w / 256 ^ i)

theorem le_congr {f g : Nat → UInt8} {n : Nat} (h : ∀ i < n, f i = g i) : le f n = le g n := by
  induction n with
  | zero => rfl
  | succ n ih =>
    rw [le, le, ih fun i hi => h i (Nat.lt_succ_of_lt hi), h n (Nat.lt_succ_self n)]

theorem le_byte (w n : Nat) : le (byte w) n = w % 256 ^ n := by
  induction n with
  | zero => rw [le, Nat.pow_zero, Nat.mod_one]
  | succ n ih =>
    have hbyte : (byte w n).toNat = w / 256 ^ n % 256 := UInt8.toNat_ofNat
    rw [le, ih, hbyte, Nat.pow_succ, Nat.mod_mul, Nat.mul_comm (w / 256 ^ n % 256)]

theorem le_zero (n : Nat) : le (fun _ => 0) n = 0 := by
  induction n with
  | zero => rfl
  | succ n ih => rw [le, ih, UInt8.toNat_zero, Nat.zero_mul]

/-! ## Bits of a byte -/

def mask (k : Nat) : UInt8 := 1 <<< UInt8.ofNat k

theorem toBitVec_mask (h : k < 8) : (mask k).toBitVec = BitVec.twoPow 8 k := by
  have hall : ∀ k : Fin 8, (mask k).toBitVec = BitVec.twoPow 8 k := by decide
  exact hall ⟨k, h⟩

theorem and_mask (h : k < 8) : x &&& mask k ≠ 0 ↔ x.toBitVec.getLsbD k = true := by
  have hpow : BitVec.twoPow 8 k ≠ 0#8 := by
    have hall : ∀ k : Fin 8, BitVec.twoPow 8 k ≠ 0#8 := by decide
    exact hall ⟨k, h⟩
  rw [ne_eq, ← UInt8.toBitVec_inj, UInt8.toBitVec_and, toBitVec_mask h, BitVec.and_twoPow]
  cases x.toBitVec.getLsbD k with
  | false => simp
  | true => simpa using hpow

theorem or_mask {j : Nat} (hj : j < 8) (hk : k < 8) :
    (x ||| mask k) &&& mask j ≠ 0 ↔ j = k ∨ x &&& mask j ≠ 0 := by
  rw [and_mask hj, and_mask hj, UInt8.toBitVec_or, toBitVec_mask hk, BitVec.getLsbD_or, BitVec.getLsbD_twoPow]
  simp only [Bool.or_eq_true, Bool.and_eq_true, decide_eq_true_eq]
  grind

theorem not_mask {j : Nat} (hj : j < 8) (hk : k < 8) :
    (x &&& ~~~ mask k) &&& mask j ≠ 0 ↔ j ≠ k ∧ x &&& mask j ≠ 0 := by
  rw [and_mask hj, and_mask hj, UInt8.toBitVec_and, UInt8.toBitVec_not, toBitVec_mask hk, BitVec.getLsbD_and,
    BitVec.getLsbD_not, BitVec.getLsbD_twoPow]
  simp only [Bool.and_eq_true, Bool.not_eq_true', Bool.and_eq_false_iff, decide_eq_true_eq, decide_eq_false_iff_not]
  grind

end Bytes
