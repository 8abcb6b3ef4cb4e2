import Mathlib.Algebra.BigOperators.Group.Finset.Basic
import Mathlib.Algebra.BigOperators.Group.Finset.Piecewise
import Mathlib.Algebra.BigOperators.Ring.Finset
import Mathlib.Algebra.Order.BigOperators.Group.Finset

/-!
# Weighing the local states of a set of threads

* `weigh f pc` : the sum of `f` over the local states `pc` of all threads;
* `weigh_update` : what one thread's move does to the sum.
-/

section
variable {T A : Type*} [Fintype T] {f g : A → Nat} {pc : T → A} {p : T} {a : A}

def weigh (f : A → Nat) (pc : T → A) : Nat := ∑ p, f (pc p)

section Update
variable [DecidableEq T]

theorem weigh_update (f : A → Nat) (pc : T → A) (p : T) (a : A) :
    weigh f (Function.update pc p a) + f (pc p) = weigh f pc + f a := by
  have hcomp : (fun q => f (Function.update pc p a q)) = Function.update (fun q => f (pc q)) p (f a) := by
    funext q
    by_cases hq : q = p
    · rw [hq, Function.update_self, Function.update_self]
    · rw [Function.update_of_ne hq, Function.update_of_ne hq]
  have hsum := Finset.sum_update_of_mem (Finset.mem_univ p) (fun q => f (pc q)) (f a)
  have hsplit := Finset.add_sum_erase Finset.univ (fun q => f (pc q)) (Finset.mem_univ p)
  rw [Finset.sdiff_singleton_eq_erase] at hsum
  rw [weigh, weigh, hcomp, hsum, ← hsplit]
  omega

end Update

theorem weigh_congr {pc' : T → A} (h : ∀ q, f (pc' q) = g (pc q)) : weigh f pc' = weigh g pc :=
  Finset.sum_congr rfl fun q _ => h q

theorem weigh_mono (h : ∀ q, f (pc q) ≤ g (pc q)) : weigh f pc ≤ weigh g pc :=
  Finset.sum_le_sum fun q _ => h q

theorem weigh_mul (k : Nat) : weigh (fun a => f a * k) pc = weigh f pc * k :=
  (Finset.sum_mul _ _ _).symm

theorem le_weigh (f : A → Nat) (pc : T → A) (p : T) : f (pc p) ≤ weigh f pc :=
  Finset.single_le_sum (f := fun q => f (pc q)) (fun _ _ => Nat.zero_le _) (Finset.mem_univ p)

theorem weigh_eq_zero (h : ∀ q, f (pc q) = 0) : weigh f pc = 0 := Finset.sum_eq_zero fun q _ => h q

/-- Two threads that both count are the same when the count is one. -/
theorem eq_of_weigh_le_one [DecidableEq T] (f : A → Nat) (pc : T → A) {p q : T} (h : weigh f pc ≤ 1) (hp : 0 < f (pc p))
    (hq : 0 < f (pc q)) : p = q := by
  by_contra hne
  have hpair : ∑ r ∈ {p, q}, f (pc r) ≤ weigh f pc :=
    Finset.sum_le_sum_of_subset (Finset.subset_univ _)
  rw [Finset.sum_pair hne] at hpair
  omega

end
