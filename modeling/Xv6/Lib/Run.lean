import Mathlib.Algebra.GroupWithZero.Nat
import Mathlib.Data.List.Basic
import Mathlib.Logic.Function.Basic

/-!
# Runs of a labelled step function

`step s l` is the state after the step labelled `l`, or `none` when the label is not enabled.

* `run step s ls` : the state after the labels `ls`, taken in order;
* `Reachable step init s` : some label list leads from `init` to `s`;
* `Always step P s ls` : `P` holds in every state of the run, the first and the last included;
* `Each step Q s ls` : `Q` holds of every step of the run, given the state before it, its label
  and the state after it;
* `Sometime step Q s ls` : `Q` holds of some step of the run;
* `Path step Q s t` : a run from `s` to `t` all of whose steps satisfy `Q`;
* `tally step f s ls` : the sum of `f` over the steps of the run;
* `trace step f s ls` : the events `f` of the steps of the run, in order;
* `runD step s ls` : the state after the run, for runs known to succeed.
-/

namespace Automaton

/-- There is a first party when there are two or three. -/
instance neZeroTwo : NeZero 2 := ⟨by decide⟩

instance neZeroThree : NeZero 3 := ⟨by decide⟩

section Defs
variable {S L : Type*} (step : S → L → Option S)

def run : S → List L → Option S
  | s, [] => some s
  | s, l :: ls => (step s l).bind fun t => run t ls

def Reachable (init s : S) : Prop := ∃ ls, run step init ls = some s

def Always (P : S → Prop) : S → List L → Prop
  | s, [] => P s
  | s, l :: ls => P s ∧ ∀ t, step s l = some t → Always P t ls

def Each (Q : S → L → S → Prop) : S → List L → Prop
  | _, [] => True
  | s, l :: ls => ∀ t, step s l = some t → Q s l t ∧ Each Q t ls

def Sometime (Q : S → L → S → Prop) (s : S) (ls : List L) : Prop :=
  ∃ ks l ms u t, ls = ks ++ l :: ms ∧ run step s ks = some u ∧ step u l = some t ∧ Q u l t

def Path (Q : S → L → S → Prop) (s t : S) : Prop := ∃ ls, run step s ls = some t ∧ Each step Q s ls

def tally (f : S → L → S → Nat) : S → List L → Nat
  | _, [] => 0
  | s, l :: ls =>
    match step s l with
    | none => 0
    | some t => f s l t + tally f t ls

def trace {K : Type*} (f : S → L → S → List K) : S → List L → List K
  | _, [] => []
  | s, l :: ls =>
    match step s l with
    | none => []
    | some t => f s l t ++ trace f t ls

def runD (s : S) (ls : List L) : S := (run step s ls).getD s

end Defs

section Lemmas
variable {S L : Type*} {step : S → L → Option S} {s u t : S} {l : L} {ls ms : List L} {P : S → Prop}
  {Q : S → L → S → Prop}

@[simp] theorem run_nil (s : S) : run step s [] = some s := rfl

theorem run_cons (s : S) (l : L) (ls : List L) :
    run step s (l :: ls) = (step s l).bind fun t => run step t ls := rfl

theorem run_cons_eq_some :
    run step s (l :: ls) = some u ↔ ∃ t, step s l = some t ∧ run step t ls = some u := by
  rw [run_cons, Option.bind_eq_some_iff]

theorem run_append (s : S) (ls ms : List L) :
    run step s (ls ++ ms) = (run step s ls).bind fun t => run step t ms := by
  induction ls generalizing s with
  | nil => rfl
  | cons l ls ih =>
    rw [List.cons_append, run_cons, run_cons, Option.bind_assoc]
    congr 1
    funext t
    exact ih t

theorem run_append_eq_some :
    run step s (ls ++ ms) = some u ↔ ∃ t, run step s ls = some t ∧ run step t ms = some u := by
  rw [run_append, Option.bind_eq_some_iff]

theorem run_trans (h : run step s ls = some t) (h' : run step t ms = some u) : run step s (ls ++ ms) = some u :=
  run_append_eq_some.mpr ⟨t, h, h'⟩

theorem run_single (h : step s l = some t) : run step s [l] = some t := by
  rw [run_cons, h]
  rfl

theorem run_eq_runD (h : (run step s ls).isSome) : run step s ls = some (runD step s ls) := by
  obtain ⟨t, ht⟩ := Option.isSome_iff_exists.mp h
  rw [runD, ht]
  rfl

theorem step_eq_runD (h : (step s l).isSome) : step s l = some (runD step s [l]) := by
  obtain ⟨t, ht⟩ := Option.isSome_iff_exists.mp h
  rw [runD, run_single ht, ht]
  rfl

theorem Reachable.refl (s : S) : Reachable step s s := ⟨[], rfl⟩

theorem Reachable.trans {init : S} (h : Reachable step init s) (h' : run step s ls = some t) :
    Reachable step init t := by
  obtain ⟨ks, hk⟩ := h
  exact ⟨ks ++ ls, run_trans hk h'⟩

theorem Reachable.next {init : S} (h : Reachable step init s) (h' : step s l = some t) : Reachable step init t :=
  h.trans (run_single h')

/-- **The run rule.** What every step preserves, every run preserves. -/
theorem run_preserves (hstep : ∀ s l t, P s → step s l = some t → P t) (hs : P s) (h : run step s ls = some t) :
    P t := by
  induction ls generalizing s with
  | nil => exact Option.some.inj h ▸ hs
  | cons l ls ih =>
    obtain ⟨u, hu, h⟩ := run_cons_eq_some.mp h
    exact ih (hstep s l u hs hu) h

/-- **The invariant rule.** What holds at the start, and is preserved by the steps from reachable
states, holds of every reachable state. -/
theorem Reachable.invariant {init : S} (h0 : P init)
    (hstep : ∀ s l t, Reachable step init s → P s → step s l = some t → P t) {s : S} (h : Reachable step init s) :
    P s := by
  obtain ⟨ls, h⟩ := h
  have hrun : Reachable step init s ∧ P s :=
    run_preserves (P := fun s => Reachable step init s ∧ P s)
      (fun s l t hs ht => ⟨hs.1.next ht, hstep s l t hs.1 hs.2 ht⟩) ⟨Reachable.refl init, h0⟩ h
  exact hrun.2

theorem Always.head (h : Always step P s ls) : P s := by
  cases ls with
  | nil => exact h
  | cons l ls => exact h.1

theorem Always.last (h : Always step P s ls) (hr : run step s ls = some t) : P t := by
  induction ls generalizing s with
  | nil => exact Option.some.inj hr ▸ h
  | cons l ls ih =>
    obtain ⟨u, hu, hr⟩ := run_cons_eq_some.mp hr
    exact ih (h.2 u hu) hr

theorem always_append (hr : run step s ls = some t) :
    Always step P s (ls ++ ms) ↔ Always step P s ls ∧ Always step P t ms := by
  induction ls generalizing s with
  | nil =>
    cases hr
    exact ⟨fun h => ⟨h.head, h⟩, fun h => h.2⟩
  | cons l ls ih =>
    obtain ⟨u, hu, hr⟩ := run_cons_eq_some.mp hr
    constructor
    · rintro ⟨h1, h2⟩
      refine ⟨⟨h1, fun v hv => ?_⟩, ((ih hr).mp (h2 u hu)).2⟩
      rw [hu] at hv
      exact Option.some.inj hv ▸ ((ih hr).mp (h2 u hu)).1
    · rintro ⟨⟨h1, h2⟩, h3⟩
      refine ⟨h1, fun v hv => ?_⟩
      rw [hu] at hv
      exact Option.some.inj hv ▸ (ih hr).mpr ⟨h2 u hu, h3⟩

theorem Always.imp {P' : S → Prop} (hp : ∀ s, P s → P' s) (h : Always step P s ls) : Always step P' s ls := by
  induction ls generalizing s with
  | nil => exact hp s h
  | cons l ls ih => exact ⟨hp s h.1, fun t ht => ih (h.2 t ht)⟩

theorem Always.and {P' : S → Prop} (h : Always step P s ls) (h' : Always step P' s ls) :
    Always step (fun s => P s ∧ P' s) s ls := by
  induction ls generalizing s with
  | nil => exact ⟨h, h'⟩
  | cons l ls ih => exact ⟨⟨h.1, h'.1⟩, fun t ht => ih (h.2 t ht) (h'.2 t ht)⟩

theorem always_of_prefix_states (h : ∀ ks ms t, ls = ks ++ ms → run step s ks = some t → P t) :
    Always step P s ls := by
  induction ls generalizing s with
  | nil => exact h [] [] s rfl rfl
  | cons l ls ih =>
    refine ⟨h [] (l :: ls) s rfl rfl, fun t ht => ih fun ks ms u he hu => ?_⟩
    exact h (l :: ks) ms u (by rw [he, List.cons_append]) (run_cons_eq_some.mpr ⟨t, ht, hu⟩)

theorem Each.imp {Q' : S → L → S → Prop} (hq : ∀ s l t, step s l = some t → Q s l t → Q' s l t) (h : Each step Q s ls) :
    Each step Q' s ls := by
  induction ls generalizing s with
  | nil => trivial
  | cons l ls ih => exact fun t ht => ⟨hq s l t ht (h t ht).1, ih (h t ht).2⟩

/-- What holds at the start and is kept by each step holds in every state of the run. -/
theorem Each.always (h : Each step (fun s _ t => P s → P t) s ls) (hs : P s) : Always step P s ls := by
  induction ls generalizing s with
  | nil => exact hs
  | cons l ls ih => exact ⟨hs, fun t ht => ih (h t ht).2 ((h t ht).1 hs)⟩

theorem Each.and_always (h : Each step Q s ls) (hp : Always step P s ls) :
    Each step (fun s l t => P s ∧ Q s l t) s ls := by
  induction ls generalizing s with
  | nil => trivial
  | cons l ls ih => exact fun t ht => ⟨⟨hp.1, (h t ht).1⟩, ih (h t ht).2 (hp.2 t ht)⟩

theorem Each.append :
    Each step Q s (ls ++ ms) ↔
      Each step Q s ls ∧ ∀ t, run step s ls = some t → Each step Q t ms := by
  induction ls generalizing s with
  | nil =>
    constructor
    · intro h
      refine ⟨trivial, fun t ht => ?_⟩
      rwa [← Option.some.inj ht]
    · intro h
      exact h.2 s rfl
  | cons l ls ih =>
    constructor
    · intro h
      refine ⟨fun t ht => ⟨(h t ht).1, (ih.mp (h t ht).2).1⟩, fun t ht => ?_⟩
      obtain ⟨u, hu, ht⟩ := run_cons_eq_some.mp ht
      exact (ih.mp (h u hu).2).2 t ht
    · rintro ⟨h1, h2⟩ t ht
      refine ⟨(h1 t ht).1, ih.mpr ⟨(h1 t ht).2, fun u hu => ?_⟩⟩
      exact h2 u (run_cons_eq_some.mpr ⟨t, ht, hu⟩)

theorem Path.single (h : step s l = some t) (hq : Q s l t) : Path step Q s t := by
  refine ⟨[l], run_single h, fun u hu => ?_⟩
  rw [h] at hu
  exact Option.some.inj hu ▸ ⟨hq, trivial⟩

theorem Path.trans (h : Path step Q s t) (h' : Path step Q t u) : Path step Q s u := by
  obtain ⟨ls, hr, he⟩ := h
  obtain ⟨ms, hr', he'⟩ := h'
  refine ⟨ls ++ ms, run_trans hr hr', Each.append.mpr ⟨he, fun v hv => ?_⟩⟩
  rw [hr] at hv
  exact Option.some.inj hv ▸ he'

theorem Path.imp {Q' : S → L → S → Prop} (hq : ∀ s l t, step s l = some t → Q s l t → Q' s l t) (h : Path step Q s t) :
    Path step Q' s t := by
  obtain ⟨ls, hr, he⟩ := h
  exact ⟨ls, hr, he.imp hq⟩

theorem trace_cons {K : Type*} {f : S → L → S → List K} (h : step s l = some t) :
    trace step f s (l :: ls) = f s l t ++ trace step f t ls := by
  simp only [trace, h]

/-- **The simulation rule.** If the events of each step that satisfies `Q` are a run of another machine, then so are the
events of a whole run of such steps. -/
theorem Each.simulates {A K : Type*} {step' : A → K → Option A} {R : S → A → Prop} {f : S → L → S → List K}
    (hstep : ∀ s a l t, R s a → step s l = some t → Q s l t → ∃ b, run step' a (f s l t) = some b ∧ R t b) {a : A}
    (he : Each step Q s ls) (hr : run step s ls = some t) (h : R s a) :
    ∃ b, run step' a (trace step f s ls) = some b ∧ R t b := by
  induction ls generalizing s a with
  | nil => exact ⟨a, rfl, Option.some.inj hr ▸ h⟩
  | cons l ls ih =>
    obtain ⟨u, hu, hr⟩ := run_cons_eq_some.mp hr
    obtain ⟨hq, he⟩ := he u hu
    obtain ⟨b, hb, hub⟩ := hstep s a l u h hu hq
    obtain ⟨c, hc, htc⟩ := ih he hr hub
    rw [trace_cons hu]
    exact ⟨c, run_trans hb hc, htc⟩

/-- A property holds of every step of a run, or its negation of some step. -/
theorem each_or_sometime (h : run step s ls = some t) :
    Each step Q s ls ∨ Sometime step (fun s l t => ¬ Q s l t) s ls := by
  induction ls generalizing s with
  | nil => exact Or.inl trivial
  | cons l ls ih =>
    obtain ⟨u, hu, h⟩ := run_cons_eq_some.mp h
    by_cases hq : Q s l u
    · rcases ih h with he | ⟨ks, m, ms, v, w, hls, hv, hw, hn⟩
      · refine Or.inl fun v hv => ?_
        rw [hu] at hv
        exact Option.some.inj hv ▸ ⟨hq, he⟩
      · refine Or.inr ⟨l :: ks, m, ms, v, w, by rw [hls, List.cons_append], ?_, hw, hn⟩
        exact run_cons_eq_some.mpr ⟨u, hu, hv⟩
    · exact Or.inr ⟨[], l, ls, s, u, rfl, rfl, hu, hq⟩

instance decidableAlways {P : S → Prop} [DecidablePred P] :
    (s : S) → (ls : List L) → Decidable (Always step P s ls)
  | s, [] => inferInstanceAs (Decidable (P s))
  | s, l :: ls =>
    have : Decidable (∀ t, step s l = some t → Always step P t ls) :=
      match step s l with
      | none => isTrue nofun
      | some u =>
        have : Decidable (Always step P u ls) := decidableAlways u ls
        decidable_of_iff (Always step P u ls)
          ⟨fun hu _ ht => Option.some.inj ht ▸ hu, fun hu => hu u rfl⟩
    inferInstanceAs (Decidable (P s ∧ ∀ t, step s l = some t → Always step P t ls))

instance decidableEach {Q : S → L → S → Prop} [∀ s l t, Decidable (Q s l t)] :
    (s : S) → (ls : List L) → Decidable (Each step Q s ls)
  | _, [] => inferInstanceAs (Decidable True)
  | s, l :: ls =>
    match h : step s l with
    | none => isTrue fun t ht => by rw [h] at ht; cases ht
    | some u =>
      have : Decidable (Each step Q u ls) := decidableEach u ls
      decidable_of_iff (Q s l u ∧ Each step Q u ls)
        ⟨fun hu t ht => by rw [h] at ht; exact Option.some.inj ht ▸ hu, fun hu => hu u h⟩

theorem tally_cons {f : S → L → S → Nat} (h : step s l = some t) :
    tally step f s (l :: ls) = f s l t + tally step f t ls := by
  simp only [tally, h]

theorem tally_append {f : S → L → S → Nat} (h : run step s ls = some t) :
    tally step f s (ls ++ ms) = tally step f s ls + tally step f t ms := by
  induction ls generalizing s with
  | nil =>
    rw [← Option.some.inj h]
    simp [tally]
  | cons l ls ih =>
    obtain ⟨u, hu, h⟩ := run_cons_eq_some.mp h
    rw [List.cons_append, tally_cons hu, tally_cons hu, ih h, Nat.add_assoc]

end Lemmas

end Automaton
