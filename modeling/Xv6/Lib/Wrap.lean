import Mathlib.Data.ZMod.Defs

/-!
# Positions of a table that wraps around

`gap a b` is the number of steps forward from position `a` to position `b` of `n` positions, the first
of which follows the last. A walk that starts at `a` and goes fewer than `gap a b` steps has not reached `b`.
-/

namespace Wrap

variable {n : Nat} {a b o : Fin n}

def gap (a b : Fin n) : Nat := (b - a).val

theorem gap_lt (a b : Fin n) : gap a b < n := (b - a).isLt

theorem gap_eq (a b : Fin n) : gap a b = if a ≤ b then b.val - a.val else n + b.val - a.val := by
  unfold gap
  split
  · rename_i h
    exact Fin.coe_sub_iff_le.mpr h
  · rename_i h
    exact Fin.coe_sub_iff_lt.mpr (Fin.not_le.mp h)

/-- A walk from `a` that has not passed `b` has come nearer to `b` by its length. -/
theorem gap_of_add (h : o.val ≤ gap a b) : gap (a + o) b = gap a b - o.val := by
  have hval := Fin.val_add a o
  have ha := a.isLt
  have hb := b.isLt
  have ho := o.isLt
  rw [gap_eq] at h
  rw [gap_eq, gap_eq]
  rcases Nat.lt_or_ge (a.val + o.val) n with hlt | hge
  · rw [Nat.mod_eq_of_lt hlt] at hval
    simp only [Fin.le_def] at h ⊢
    split_ifs at h ⊢ <;> omega
  · have hmod : (a.val + o.val) % n = a.val + o.val - n := by
      rw [Nat.mod_eq_sub_mod hge, Nat.mod_eq_of_lt (by omega)]
    rw [hmod] at hval
    simp only [Fin.le_def] at h ⊢
    split_ifs at h ⊢ <;> omega

variable [NeZero n]

theorem add_eq_of_gap (h : o.val = gap a b) : a + o = b := by
  have ho : o = b - a := Fin.ext h
  rw [ho, add_sub_cancel]

theorem gap_add (a o : Fin n) : gap a (a + o) = o.val := by
  unfold gap
  rw [add_sub_cancel_left]

theorem gap_pos (h : a ≠ b) : 0 < gap a b := by
  refine Nat.pos_of_ne_zero fun h0 => h ?_
  have := add_eq_of_gap (a := a) (b := b) (o := 0) (by rw [h0]; rfl)
  rwa [add_zero] at this

/-- The position after a walk that is still short of `b` is nearer to `b` by one more. -/
theorem gap_add_one (h : o.val < gap a b) : gap (a + o + 1) b = gap a b - o.val - 1 := by
  have hd := gap_of_add h.le
  have hlt := gap_lt (a + o) b
  have hone : (1 : Fin n).val = 1 := by
    rw [Fin.val_one', Nat.mod_eq_of_lt (by omega)]
  rw [gap_of_add (by rw [hone]; omega), hone, hd]

theorem gap_succ_left (h : a ≠ b) : gap (a + 1) b = gap a b - 1 := by
  have := gap_add_one (a := a) (b := b) (o := 0) (gap_pos h)
  rwa [add_zero] at this

end Wrap
