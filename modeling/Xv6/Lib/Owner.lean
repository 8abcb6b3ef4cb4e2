import Mathlib.Data.List.Perm.Basic
import Mathlib.Data.List.Nodup

/-!
# Lock ownership

`lock l` is the owner of `l`, and `held c` lists what owner `c` believes it holds. `Owned` says that
the two agree. A step of one owner takes a free lock, or gives some of its own back; `Owned.step`
says that the two still agree after it.
-/

namespace Owner

variable {C L : Type*} {l : L}

/-- The lock table and the owners' own lists agree. -/
structure Owned (lock : L → Option C) (held : C → List L) : Prop where
  iff_mem : ∀ l c, lock l = some c ↔ l ∈ held c
  nodup : ∀ c, (held c).Nodup

/-- The lock table after owner `c` takes `acq` and gives `rel` back. -/
def update [DecidableEq L] (lock : L → Option C) (c : C) (acq : Option L) (rel : List L) :
    L → Option C :=
  fun l => if l ∈ rel then none else if acq = some l then some c else lock l

variable {lock : L → Option C} {held held' : C → List L} {c : C} {acq : Option L} {rel : List L}

theorem Owned.unique (h : Owned lock held) {c' : C} (hc : l ∈ held c) (hc' : l ∈ held c') : c = c' := by
  have h1 := (h.iff_mem l c).mpr hc
  have h2 := (h.iff_mem l c').mpr hc'
  rw [h1] at h2
  exact Option.some.inj h2

theorem Owned.not_mem_of_free (h : Owned lock held) (hl : lock l = none) (c : C) : l ∉ held c := by
  intro hm
  rw [(h.iff_mem l c).mpr hm] at hl
  cases hl

theorem Owned.nodup_append (h : Owned lock held) (hfree : ∀ l, acq = some l → lock l = none) :
    (acq.toList ++ held c).Nodup := by
  cases acq with
  | none => exact h.nodup c
  | some l =>
    refine List.nodup_cons.mpr ⟨?_, h.nodup c⟩
    exact h.not_mem_of_free (hfree l rfl) c

@[simp] theorem update_none_nil [DecidableEq L] : update lock c none [] = lock := by
  funext l
  simp [update]

/-- Taking a free lock and giving it back leaves the table as it was. -/
theorem update_acquire_release [DecidableEq L] (hl : lock l = none) :
    update (update lock c (some l) []) c none [l] = lock := by
  funext m
  unfold update
  by_cases hm : m = l
  · subst hm
    simp [hl]
  · simp [hm, Ne.symm hm]

/-- **A step of one owner.** The other owners' lists stay as they are. -/
theorem Owned.step [DecidableEq L] (h : Owned lock held)
    (hfree : ∀ l, acq = some l → lock l = none)
    (hperm : (acq.toList ++ held c).Perm (rel ++ held' c))
    (hother : ∀ c', c' ≠ c → held' c' = held c') :
    Owned (update lock c acq rel) held' := by
  have hnd : (rel ++ held' c).Nodup := hperm.nodup_iff.mp (h.nodup_append hfree)
  have hmem : ∀ l, acq = some l ∨ l ∈ held c ↔ l ∈ rel ∨ l ∈ held' c := by
    intro l
    have := hperm.mem_iff (a := l)
    rwa [List.mem_append, List.mem_append, Option.mem_toList] at this
  have hdisj : ∀ l, l ∈ rel → l ∉ held' c := fun l h1 h2 =>
    (List.nodup_append.mp hnd).2.2 l h1 l h2 rfl
  refine ⟨fun l d => ?_, fun d => ?_⟩
  · unfold update
    by_cases hd : d = c
    · subst hd
      have hl := hmem l
      by_cases hr : l ∈ rel
      · simp [hr, hdisj l hr]
      · by_cases ha : acq = some l
        · have := hl.mp (Or.inl ha)
          simp [hr, ha] at this ⊢
          exact this
        · rw [if_neg hr, if_neg ha, h.iff_mem]
          constructor
          · intro h1
            exact (hl.mp (Or.inr h1)).resolve_left hr
          · intro h1
            exact (hl.mpr (Or.inr h1)).resolve_left ha
    · rw [hother d hd, ← h.iff_mem]
      by_cases hr : l ∈ rel
      · -- what `c` gives back was its own, or free when it took it
        have hne : lock l ≠ some d := by
          rcases (hmem l).mpr (Or.inl hr) with ha | hm
          · rw [hfree l ha]
            simp
          · rw [(h.iff_mem l c).mpr hm]
            exact fun he => hd (Option.some.inj he).symm
        simp [hr, hne]
      · by_cases ha : acq = some l
        · simp [hr, ha, hfree l ha, Ne.symm hd]
        · simp [hr, ha]
  · by_cases hd : d = c
    · subst hd
      exact (List.nodup_append.mp hnd).2.1
    · rw [hother d hd]
      exact h.nodup d

end Owner
