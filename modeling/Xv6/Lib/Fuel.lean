import Mathlib.Data.Nat.Init

/-!
# Computations with a number of turns

A loop that is given a number of turns is `none` when they do not suffice.

* `Returns call r` : the call ends with `r`, however many more turns it is given; rules for a turn and for two calls in
  a row;
* `Settles call Q` : the call ends, with an error or with a value of which `Q` holds; rules for `>>=`.
-/

namespace Fuel

/-- The call ends with `r`, however many more turns it is given. -/
def Returns {A : Type} (call : Nat → Option A) (r : A) : Prop := ∃ n, ∀ fuel, n ≤ fuel → call fuel = some r

section Returns
variable {A : Type} {call call' : Nat → Option A} {r r' : A}

theorem Returns.unique (hr : Returns call r) (hr' : Returns call r') : r = r' := by
  obtain ⟨n, hn⟩ := hr
  obtain ⟨n', hn'⟩ := hr'
  have heq := (hn (n + n') (Nat.le_add_right ..)).symm.trans (hn' (n + n') (Nat.le_add_left ..))
  exact Option.some.inj heq

/-- A call that ends for some number of turns returns. -/
theorem returns_of_mono {n : Nat} (hmono : ∀ fuel, call fuel = some r → call (fuel + 1) = some r)
    (hn : call n = some r) : Returns call r := by
  refine ⟨n, fun fuel hfuel => ?_⟩
  induction fuel, hfuel using Nat.le_induction with
  | base => exact hn
  | succ fuel _ ih => exact hmono fuel ih

theorem Returns.const (r : A) : Returns (fun _ => some r) r := ⟨0, fun _ _ => rfl⟩

/-- One turn is used before the rest. -/
theorem Returns.turn (hr : Returns call r) (heq : ∀ fuel, call' (fuel + 1) = call fuel) : Returns call' r := by
  obtain ⟨n, hn⟩ := hr
  refine ⟨n + 1, fun fuel hfuel => ?_⟩
  obtain ⟨k, rfl⟩ : ∃ k, fuel = k + 1 := ⟨fuel - 1, by omega⟩
  rw [heq k]
  exact hn k (by omega)

/-- A call, and then another one with its result. -/
theorem Returns.next {B : Type} {f : Nat → A → Option B} {b : B} (hr : Returns call r)
    (hf : Returns (fun fuel => f fuel r) b) : Returns (fun fuel => (call fuel).bind (f fuel)) b := by
  obtain ⟨n, hn⟩ := hr
  obtain ⟨n', hn'⟩ := hf
  refine ⟨n + n', fun fuel hfuel => ?_⟩
  show (call fuel).bind (f fuel) = some b
  rw [hn fuel (by omega), Option.bind_some]
  exact hn' fuel (by omega)

end Returns

section Settles
variable {E A B : Type} {f : Nat → A → ExceptT E Option B}

theorem Returns.bind {a : A} {r : Except E B} (hm : Returns m (.ok a)) (hf : Returns (fun fuel => f fuel a) r) :
    Returns (fun fuel => (m fuel >>= f fuel : ExceptT E Option B)) r := by
  obtain ⟨n, hn⟩ := hm
  obtain ⟨n', hn'⟩ := hf
  refine ⟨n + n', fun fuel hfuel => ?_⟩
  have hbind : (m fuel >>= f fuel : ExceptT E Option B) = f fuel a := by
    show Option.bind (m fuel) _ = _
    rw [hn fuel (by omega)]
    rfl
  exact hbind.trans (hn' fuel (by omega))

theorem Returns.error_bind {e : E} (hm : Returns m (.error e)) :
    Returns (fun fuel => (m fuel >>= f fuel : ExceptT E Option B)) (.error e) := by
  obtain ⟨n, hn⟩ := hm
  refine ⟨n, fun fuel hfuel => ?_⟩
  show Option.bind (m fuel) _ = _
  rw [hn fuel hfuel]
  rfl

/-- The call ends, with an error or with a value of which `Q` holds. -/
def Settles (call : Nat → ExceptT E Option A) (Q : A → Prop) : Prop :=
  ∃ r, Returns call r ∧ ∀ a, r = .ok a → Q a

variable {m : Nat → ExceptT E Option A} {P Q : A → Prop}

theorem Settles.pure {a : A} (ha : Q a) : Settles (E := E) (fun _ => Pure.pure a) Q :=
  ⟨.ok a, Returns.const _, fun _ heq => Except.ok.inj heq ▸ ha⟩

theorem Settles.throw (e : E) : Settles (fun _ => (MonadExcept.throw e : ExceptT E Option A)) Q :=
  ⟨.error e, Returns.const _, fun _ heq => nomatch heq⟩

theorem Settles.bind {R : B → Prop} (hm : Settles m P) (hf : ∀ a, P a → Settles (fun fuel => f fuel a) R) :
    Settles (fun fuel => m fuel >>= f fuel) R := by
  obtain ⟨r, hr, hP⟩ := hm
  cases r with
  | error e => exact ⟨.error e, hr.error_bind, fun _ heq => nomatch heq⟩
  | ok a =>
    obtain ⟨r', hr', hR⟩ := hf a (hP a rfl)
    exact ⟨r', hr.bind hr', hR⟩

theorem Settles.turn {m' : Nat → ExceptT E Option A} (hm : Settles m Q) (heq : ∀ fuel, m' (fuel + 1) = m fuel) :
    Settles m' Q := by
  obtain ⟨r, hr, hQ⟩ := hm
  exact ⟨r, hr.turn heq, hQ⟩

theorem Settles.mono (hm : Settles m P) (hPQ : ∀ a, P a → Q a) : Settles m Q := by
  obtain ⟨r, hr, hP⟩ := hm
  exact ⟨r, hr, fun a ha => hPQ a (hP a ha)⟩

end Settles

end Fuel
