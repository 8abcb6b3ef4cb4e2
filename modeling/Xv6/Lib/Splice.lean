import Mathlib.Data.List.Basic

/-!
# Arrays as lists, read and overwritten in ranges

* `splice l off new` : the list `l` with `new` from `off` on, longer if need be;
* `map_range_slice`, `map_range_splice` : an array given by a function on its indices, read or overwritten in a range.
-/

namespace Splice

section
variable {A : Type*}

def splice (l : List A) (off : Nat) (new : List A) : List A := l.take off ++ new ++ l.drop (off + new.length)

theorem map_range_take {f : Nat → A} {m off : Nat} (h : off ≤ m) :
    ((List.range m).map f).take off = (List.range off).map f := by
  rw [← List.map_take, List.take_range, Nat.min_eq_left h]

theorem map_range_drop (f : Nat → A) (m off : Nat) :
    ((List.range m).map f).drop off = (List.range (m - off)).map fun k => f (off + k) := by
  apply List.ext_getElem
  · simp
  · intro k hk hk'
    simp

theorem map_range_slice (f : Nat → A) (m off n : Nat) :
    (((List.range m).map f).drop off).take n = (List.range (min n (m - off))).map fun k => f (off + k) := by
  rw [map_range_drop, ← List.map_take, List.take_range]

theorem map_range_splice {f g b : Nat → A} {m off k : Nat} (h : off ≤ m)
    (hg : ∀ x < max m (off + k), g x = if off ≤ x ∧ x < off + k then b (x - off) else f x) :
    (List.range (max m (off + k))).map g = splice ((List.range m).map f) off ((List.range k).map b) := by
  rw [splice, map_range_take h, List.length_map, List.length_range, map_range_drop,
    show max m (off + k) = off + k + (m - (off + k)) by omega, List.range_add, List.range_add, List.map_append,
    List.map_append, List.map_map, List.map_map]
  congr 1
  · congr 1
    · refine List.map_congr_left fun x hx => ?_
      have hlt : x < off := List.mem_range.mp hx
      rw [hg x (by omega), if_neg (by omega)]
    · refine List.map_congr_left fun x hx => ?_
      have hlt : x < k := List.mem_range.mp hx
      rw [Function.comp_apply, hg _ (by omega), if_pos (by omega), Nat.add_sub_cancel_left]
  · refine List.map_congr_left fun x hx => ?_
    have hlt : x < m - (off + k) := List.mem_range.mp hx
    rw [Function.comp_apply, hg _ (by omega), if_neg (by omega)]

end

end Splice
