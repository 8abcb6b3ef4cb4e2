import Mathlib.Data.List.Basic

/-!
# Tables with free slots

A table is a list of slots, each free or with a key and a value.

* `lookup t k` : the value in the first slot with the key `k`, and the index of the slot;
* `free t`, `put t i x` : the first free slot, or the end of the table, and the table with `x` there;
* `Distinct t` : no key is in two slots. Then `lookup` finds what is in the slots (`Distinct.lookup_iff`), and the table
  is a finite map: `Distinct.insert`, `Distinct.clear`.
-/

namespace Slots

section
variable {K V : Type*}

def put (t : List (Option (K × V))) (i : Nat) (x : Option (K × V)) : List (Option (K × V)) :=
  if i < t.length then t.set i x else t ++ [x]

def free (t : List (Option (K × V))) : Nat := t.findIdx Option.isNone

def Distinct (t : List (Option (K × V))) : Prop :=
  ∀ (i j : Nat) (k : K) (v w : V), t[i]? = some (some (k, v)) → t[j]? = some (some (k, w)) → i = j

variable {t : List (Option (K × V))} {i j : Nat} {x : Option (K × V)} {k : K} {v : V}

theorem getElem?_put (h : i ≤ t.length) (j : Nat) : (put t i x)[j]? = if j = i then some x else t[j]? := by
  rw [put]
  by_cases hi : i < t.length
  · rw [if_pos hi]
    by_cases hj : j = i
    · rw [hj, if_pos rfl, List.getElem?_set_self hi]
    · rw [if_neg hj, List.getElem?_set_ne (Ne.symm hj)]
  · have hlen : i = t.length := by omega
    rw [if_neg hi, hlen]
    by_cases hj : j = t.length
    · rw [hj, if_pos rfl, List.getElem?_concat_length]
    · rw [if_neg hj]
      by_cases hlt : j < t.length
      · rw [List.getElem?_append_left hlt]
      · rw [List.getElem?_eq_none (by rw [List.length_append, List.length_singleton]; omega),
          List.getElem?_eq_none (by omega)]

theorem free_le (t : List (Option (K × V))) : free t ≤ t.length := List.findIdx_le_length

theorem getElem?_free (p : K × V) : t[free t]? ≠ some (some p) := by
  intro hc
  obtain ⟨hlt, hget⟩ := List.getElem?_eq_some_iff.mp hc
  have hnone : t[free t].isNone = true := List.findIdx_getElem (p := Option.isNone) (w := hlt)
  rw [hget] at hnone
  cases hnone

/-! ## The table as a map -/

variable [DecidableEq K]

def lookupFrom (k : K) : Nat → List (Option (K × V)) → Option (V × Nat)
  | _, [] => none
  | i, none :: t => lookupFrom k (i + 1) t
  | i, some (k', v) :: t => if k' = k then some (v, i) else lookupFrom k (i + 1) t

def lookup (t : List (Option (K × V))) (k : K) : Option (V × Nat) := lookupFrom k 0 t

theorem lookupFrom_some (h : lookupFrom k i t = some (v, j)) : i ≤ j ∧ t[j - i]? = some (some (k, v)) := by
  induction t generalizing i with
  | nil => cases h
  | cons x t ih =>
    have hstep : lookupFrom k (i + 1) t = some (v, j) → i ≤ j ∧ (x :: t)[j - i]? = some (some (k, v)) := fun hr => by
      obtain ⟨hle, hget⟩ := ih hr
      refine ⟨by omega, ?_⟩
      rwa [show j - i = j - (i + 1) + 1 by omega, List.getElem?_cons_succ]
    cases x with
    | none => exact hstep h
    | some p =>
      obtain ⟨k', v'⟩ := p
      rw [lookupFrom] at h
      by_cases hk : k' = k
      · rw [if_pos hk] at h
        obtain ⟨rfl, rfl⟩ := Prod.mk.inj (Option.some.inj h)
        rw [Nat.sub_self, hk]
        exact ⟨Nat.le_refl _, rfl⟩
      · rw [if_neg hk] at h
        exact hstep h

theorem lookupFrom_none (h : lookupFrom k i t = none) (v : V) : some (k, v) ∉ t := by
  induction t generalizing i with
  | nil => exact List.not_mem_nil
  | cons x t ih =>
    cases x with
    | none =>
      rw [List.mem_cons, not_or]
      exact ⟨nofun, ih h⟩
    | some p =>
      obtain ⟨k', v'⟩ := p
      rw [lookupFrom] at h
      by_cases hk : k' = k
      · rw [if_pos hk] at h
        cases h
      · rw [if_neg hk] at h
        rw [List.mem_cons, not_or]
        exact ⟨fun he => hk (Prod.mk.inj (Option.some.inj he)).1.symm, ih h⟩

theorem lookup_some (h : lookup t k = some (v, i)) : t[i]? = some (some (k, v)) := (lookupFrom_some h).2

theorem lookup_lt (h : lookup t k = some (v, i)) : i < t.length := (List.getElem?_eq_some_iff.mp (lookup_some h)).1

theorem lookup_none (h : lookup t k = none) (i : Nat) (v : V) : t[i]? ≠ some (some (k, v)) := fun hc =>
  lookupFrom_none h v (List.mem_of_getElem? hc)

theorem Distinct.lookup_iff (h : Distinct t) : lookup t k = some (v, i) ↔ t[i]? = some (some (k, v)) := by
  refine ⟨lookup_some, fun hi => ?_⟩
  cases hl : lookup t k with
  | none => exact absurd hi (lookup_none hl i v)
  | some p =>
    obtain ⟨w, j⟩ := p
    have hj := lookup_some hl
    obtain rfl := h _ _ _ _ _ hi hj
    rw [hi] at hj
    rw [(Prod.mk.inj (Option.some.inj (Option.some.inj hj))).2]

/-- Tables that agree on the slots with the key `k`. -/
theorem lookup_congr {t' : List (Option (K × V))} (h : Distinct t) (h' : Distinct t')
    (heq : ∀ (i : Nat) (v : V), t'[i]? = some (some (k, v)) ↔ t[i]? = some (some (k, v))) :
    lookup t' k = lookup t k := by
  apply Option.ext
  rintro ⟨v, i⟩
  exact h'.lookup_iff.trans ((heq i v).trans h.lookup_iff.symm)

/-- A new key goes to the first free slot. -/
theorem Distinct.insert (h : Distinct t) (hk : lookup t k = none) (v : V) :
    Distinct (put t (free t) (some (k, v))) ∧ lookup (put t (free t) (some (k, v))) k = some (v, free t) ∧
      ∀ k', k' ≠ k → lookup (put t (free t) (some (k, v))) k' = lookup t k' := by
  have hget := getElem?_put (x := some (k, v)) (free_le t)
  have hd : Distinct (put t (free t) (some (k, v))) := by
    intro i j k' u w hi hj
    rw [hget] at hi hj
    by_cases hi0 : i = free t
    · rw [if_pos hi0] at hi
      by_cases hj0 : j = free t
      · rw [hi0, hj0]
      · rw [if_neg hj0, ← (Prod.mk.inj (Option.some.inj (Option.some.inj hi))).1] at hj
        exact absurd hj (lookup_none hk j w)
    · rw [if_neg hi0] at hi
      by_cases hj0 : j = free t
      · rw [if_pos hj0] at hj
        rw [← (Prod.mk.inj (Option.some.inj (Option.some.inj hj))).1] at hi
        exact absurd hi (lookup_none hk i u)
      · rw [if_neg hj0] at hj
        exact h _ _ _ _ _ hi hj
  refine ⟨hd, hd.lookup_iff.mpr (by rw [hget, if_pos rfl]), fun k' hne => lookup_congr h hd fun i u => ?_⟩
  rw [hget]
  by_cases hi : i = free t
  · rw [if_pos hi, hi]
    exact ⟨fun he => absurd (Prod.mk.inj (Option.some.inj (Option.some.inj he))).1.symm hne,
      fun he => absurd he (getElem?_free _)⟩
  · rw [if_neg hi]

/-- A slot is freed. -/
theorem Distinct.clear (h : Distinct t) (hk : lookup t k = some (v, i)) :
    Distinct (put t i none) ∧ lookup (put t i none) k = none ∧
      ∀ k', k' ≠ k → lookup (put t i none) k' = lookup t k' := by
  have hi := lookup_some hk
  have hlt : i < t.length := (List.getElem?_eq_some_iff.mp hi).1
  have hget := getElem?_put (x := (none : Option (K × V))) (Nat.le_of_lt hlt)
  have hsub : ∀ {j p}, (put t i none)[j]? = some (some p) → j ≠ i ∧ t[j]? = some (some p) := by
    intro j p hj
    rw [hget] at hj
    by_cases hji : j = i
    · rw [if_pos hji] at hj
      cases hj
    · rw [if_neg hji] at hj
      exact ⟨hji, hj⟩
  have hd : Distinct (put t i none) := fun _ _ _ _ _ hj hj' => h _ _ _ _ _ (hsub hj).2 (hsub hj').2
  refine ⟨hd, ?_, fun k' hne => lookup_congr h hd fun j u => ⟨fun hj => (hsub hj).2, fun hj => ?_⟩⟩
  · cases hl : lookup (put t i none) k with
    | none => rfl
    | some p =>
      obtain ⟨hne, hp⟩ := hsub (lookup_some (v := p.1) (i := p.2) hl)
      exact absurd (h _ _ _ _ _ hp hi) hne
  · rw [hget, if_neg]
    · exact hj
    · rintro rfl
      rw [hi] at hj
      exact hne (Prod.mk.inj (Option.some.inj (Option.some.inj hj))).1.symm

end

end Slots
