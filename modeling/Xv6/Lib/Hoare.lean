import Mathlib.Data.List.FinRange

/-!
# Postconditions for programs with a state and errors

* `Runs R m s Q` : run from the state `s`, the program `m` ends in a result and a state with `Q`, or stops with an error
  that `R` allows;
* one rule for each way to build a program: `Runs.pure`, `Runs.seq`, `Runs.get_bind`, `Runs.modify_bind`, `Runs.throw`,
  `Runs.ite`, and `Runs.forM_range`, `Runs.forM_finRange`, `Runs.forM_list` for loops.
-/

namespace Hoare

section
variable {S E A B : Type}

def Runs (R : E → Prop) (m : StateT S (Except E) A) (s : S) (Q : A → S → Prop) : Prop :=
  match m s with
  | .ok (a, t) => Q a t
  | .error e => R e

variable {R : E → Prop} {m : StateT S (Except E) A} {s : S} {Q Q' : A → S → Prop}

/-- A run on given inputs is decided by running it. -/
instance [DecidablePred R] [∀ a t, Decidable (Q a t)] : Decidable (Runs R m s Q) :=
  match h : m s with
  | .ok p => decidable_of_iff (Q p.1 p.2) (by rw [Runs, h])
  | .error e => decidable_of_iff (R e) (by rw [Runs, h])

section
variable (h : Runs R m s Q)
include h

theorem Runs.mono (hq : ∀ a t, Q a t → Q' a t) : Runs R m s Q' := by
  rw [Runs] at h ⊢
  cases hms : m s with
  | error e =>
    rw [hms] at h
    exact h
  | ok p =>
    rw [hms] at h
    exact hq p.1 p.2 h

/-- What two proofs say of one run. -/
theorem Runs.and {R' : E → Prop} (h' : Runs R' m s Q') :
    Runs (fun e => R e ∧ R' e) m s fun a t => Q a t ∧ Q' a t := by
  rw [Runs] at h h' ⊢
  cases hms : m s with
  | error e =>
    rw [hms] at h h'
    exact ⟨h, h'⟩
  | ok p =>
    rw [hms] at h h'
    exact ⟨h, h'⟩

theorem Runs.weaken {R' : E → Prop} (hr : ∀ e, R e → R' e) : Runs R' m s Q := by
  rw [Runs] at h ⊢
  cases hms : m s with
  | error e =>
    rw [hms] at h
    exact hr e h
  | ok p =>
    rw [hms] at h
    exact h

theorem Runs.both (h' : Runs R m s Q') : Runs R m s fun a t => Q a t ∧ Q' a t :=
  (h.and h').weaken fun _ he => he.1

/-- Under a condition that excludes the errors, there are none. -/
theorem Runs.unless {c : Prop} (h' : c → Runs (fun _ => False) m s Q') : Runs (fun e => R e ∧ ¬ c) m s Q := by
  by_cases hc : c
  · exact ((h.and (h' hc)).mono fun _ _ hq => hq.1).weaken fun _ he => he.2.elim
  · exact h.weaken fun _ he => ⟨he, hc⟩

/-- What is known of a run that has ended. -/
theorem Runs.of_ok {a : A} {t : S} (hrun : m s = .ok (a, t)) : Q a t := by
  rwa [Runs, hrun] at h

/-- The run itself, beside its postcondition. -/
theorem Runs.self : Runs R m s fun a t => m s = .ok (a, t) ∧ Q a t := by
  rw [Runs] at h ⊢
  cases hms : m s with
  | error e =>
    rw [hms] at h
    exact h
  | ok p =>
    rw [hms] at h
    exact ⟨rfl, h⟩

end

/-- The state after a run. -/
def final (m : StateT S (Except E) A) (s : S) : S :=
  match m s with
  | .ok (_, t) => t
  | .error _ => s

/-- A program that cannot fail ends. -/
theorem Runs.final (h : Runs (fun _ => False) m s Q) : ∃ a, Q a (final m s) := by
  rw [Runs] at h
  rw [Hoare.final]
  cases hms : m s with
  | error e =>
    rw [hms] at h
    exact h.elim
  | ok p =>
    rw [hms] at h
    exact ⟨p.1, h⟩

theorem Runs.pure {a : A} (h : Q a s) : Runs R (Pure.pure a) s Q := h

theorem Runs.throw {e : E} (h : R e) : Runs R (MonadExcept.throw e : StateT S (Except E) A) s Q := h

section Bind
variable {f : A → StateT S (Except E) B} {Q' : B → S → Prop}

theorem Runs.seq (hm : Runs R m s Q) (hf : ∀ a t, Q a t → Runs R (f a) t Q') : Runs R (m >>= f) s Q' := by
  rw [Runs] at hm
  show match Except.bind (m s) fun p => f p.1 p.2 with
    | .ok (a, t) => Q' a t
    | .error e => R e
  cases hms : m s with
  | error e =>
    rw [hms] at hm
    exact hm
  | ok p =>
    rw [hms] at hm
    exact hf p.1 p.2 hm

theorem Runs.pure_bind {a : A} (h : Runs R (f a) s Q') : Runs R (Pure.pure a >>= f) s Q' := h

theorem Runs.throw_bind {e : E} (h : R e) : Runs R ((MonadExcept.throw e : StateT S (Except E) A) >>= f) s Q' := h

end Bind

section State
variable {f : S → StateT S (Except E) A} {g : S → S} {k : PUnit → StateT S (Except E) A} {Q'' : PUnit → S → Prop}

/-- The result of `get` is the state. -/
theorem Runs.get_bind (h : Runs R (f s) s Q) : Runs R (get >>= f) s Q := h

theorem Runs.of_modify (h : Q'' ⟨⟩ (g s)) : Runs R (modify g : StateT S (Except E) PUnit) s Q'' := h

theorem Runs.modify_bind (h : Runs R (k ⟨⟩) (g s) Q) : Runs R ((modify g : StateT S (Except E) PUnit) >>= k) s Q := h

end State

theorem Runs.ite {c : Prop} [Decidable c] {m' : StateT S (Except E) A} (ht : c → Runs R m s Q)
    (hf : ¬ c → Runs R m' s Q) : Runs R (if c then m else m') s Q := by
  split
  · exact ht ‹_›
  · exact hf ‹_›

/-- A loop over `0, …, n - 1`, by what each turn carries on. -/
theorem Runs.forM_range {n : Nat} {f : Nat → StateT S (Except E) PUnit} {I : Nat → S → Prop} (h0 : I 0 s)
    (h : ∀ i < n, ∀ t, I i t → Runs R (f i) t fun _ => I (i + 1)) : Runs R (forM (List.range n) f) s fun _ => I n := by
  have hstep : ∀ k ≤ n, Runs R (forM (List.range k) f) s fun _ => I k := by
    intro k
    induction k with
    | zero => exact fun _ => h0
    | succ k ih =>
      intro hk
      rw [List.range_succ, List.forM_append]
      refine Runs.seq (ih (Nat.le_of_succ_le hk)) fun _ t ht => ?_
      rw [List.forM_cons]
      refine Runs.seq (h k hk t ht) fun _ u hu => ?_
      rw [List.forM_nil]
      exact hu
  exact hstep n (Nat.le_refl n)

/-- A loop over the numbers below `n`, as elements of `Fin n`; the list is a variable, which no elaboration unrolls. -/
theorem Runs.forM_finRange {n : Nat} {l : List (Fin n)} {f : Fin n → StateT S (Except E) PUnit} {I : Nat → S → Prop}
    (hl : l = List.finRange n) (h0 : I 0 s) (h : ∀ i : Fin n, ∀ t, I i t → Runs R (f i) t fun _ => I (i + 1)) :
    Runs R (forM l f) s fun _ => I n := by
  have hlen : l.length = n := by rw [hl, List.length_finRange]
  have hstep : ∀ k ≤ n, Runs R (forM (l.take k) f) s fun _ => I k := by
    intro k
    induction k with
    | zero => exact fun _ => h0
    | succ k ih =>
      intro hk
      have hk' : k < l.length := by rwa [hlen]
      have hget : l[k] = ⟨k, hk⟩ := by
        subst hl
        exact List.getElem_finRange _
      rw [List.take_succ_eq_append_getElem hk', hget, List.forM_append]
      refine Runs.seq (ih (Nat.le_of_succ_le hk)) fun _ t ht => ?_
      rw [List.forM_cons]
      refine Runs.seq (h ⟨k, hk⟩ t ht) fun _ u hu => ?_
      rw [List.forM_nil]
      exact hu
  have hall := hstep n (Nat.le_refl n)
  rwa [List.take_of_length_le (Nat.le_of_eq hlen)] at hall

/-- A loop over a list whose turns keep an invariant. -/
theorem Runs.forM_list {l : List B} {f : B → StateT S (Except E) PUnit} {I : S → Prop} (h0 : I s)
    (h : ∀ x ∈ l, ∀ t, I t → Runs R (f x) t fun _ => I) : Runs R (forM l f) s fun _ => I := by
  induction l generalizing s with
  | nil =>
    rw [List.forM_nil]
    exact h0
  | cons x l ih =>
    rw [List.forM_cons]
    refine Runs.seq (h x List.mem_cons_self s h0) fun _ t ht => ?_
    exact ih ht fun y hy => h y (List.mem_cons_of_mem _ hy)

end

end Hoare
