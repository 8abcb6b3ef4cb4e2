import Xv6.Proc.Code
import Xv6.Proc.Fields
import Xv6.Sched.Step

/-!
# One pass of the scheduler

A pass of CPU `c` goes from the head of the loop of `scheduler()` through the two scans to a dispatch,
or to `wfi`. `P` is the process table at its start and `k` the value of `next_index`.

* `Seen P i best found` : the locals of the first scan, when it has visited the slots below `i`;
* `Passed P k o best` : the second scan has passed over the offsets below `o`;
* `Chosen P k p` : `p` is the first slot at or circularly after `k` whose priority, after aging, is the
  least among the RUNNABLE ones;
* `dispatch_le_seen` : a dispatch under interference from the other CPUs;
* `quiet_pass` : a pass during which the other CPUs leave the table alone, `solo_pass` : its existence.
-/

namespace Xv6
open Function

open Wrap Automaton

variable {n : Nat} {s t : State n} {c : Fin n} {p : Slot}

/-! ## The choice, as a specification -/

structure Chosen (P : Slot → Proc) (k p : Slot) : Prop where
  runnable : (P p).state = .runnable
  least : ∀ j, (P j).state = .runnable → (schedulerVisit (P p)).priority ≤ (schedulerVisit (P j)).priority
  first : ∀ j, (P j).state = .runnable →
    (schedulerVisit (P j)).priority = (schedulerVisit (P p)).priority → gap k p ≤ gap k j

/-- The table when the first scan has visited the slots below `i`. -/
def visitedTo (P : Slot → Proc) (i : Nat) : Slot → Proc :=
  fun j => if j.val < i then schedulerVisit (P j) else P j

/-- The table after the pass: every slot visited, and the chosen one dispatched. -/
def afterPass (P : Slot → Proc) (p : Slot) : Slot → Proc :=
  update (fun j => schedulerVisit (P j)) p (schedulerDispatch (schedulerVisit (P p)))

structure Seen (P : Slot → Proc) (i : Nat) (best : Int) (found : Bool) : Prop where
  le : ∀ j : Slot, j.val < i → (P j).state = .runnable → best ≤ (schedulerVisit (P j)).priority
  attained : found = true →
    ∃ j : Slot, j.val < i ∧ (P j).state = .runnable ∧ (schedulerVisit (P j)).priority = best
  nothing : found = false → best = priorityMax + 1 ∧ ∀ j : Slot, j.val < i → (P j).state ≠ .runnable

def Passed (P : Slot → Proc) (k : Slot) (o : Nat) (best : Int) : Prop :=
  ∀ o' : Slot, o'.val < o →
    ¬ ((P (k + o')).state = .runnable ∧ (schedulerVisit (P (k + o'))).priority = best)

section Choice
variable {P : Slot → Proc} {k : Slot} {best : Int} {found : Bool}

theorem Chosen.unique {p q : Slot} (hp : Chosen P k p) (hq : Chosen P k q) : p = q := by
  have hprio := le_antisymm (hp.least q hq.runnable) (hq.least p hp.runnable)
  have hdist := le_antisymm (hp.first q hq.runnable hprio.symm) (hq.first p hp.runnable hprio)
  rw [← add_eq_of_gap (a := k) (o := p - k) rfl]
  exact add_eq_of_gap hdist

instance (p : Slot) : Decidable (Chosen P k p) :=
  decidable_of_iff ((P p).state = .runnable ∧
      (∀ j, (P j).state = .runnable → (schedulerVisit (P p)).priority ≤ (schedulerVisit (P j)).priority) ∧
      ∀ j, (P j).state = .runnable →
        (schedulerVisit (P j)).priority = (schedulerVisit (P p)).priority → gap k p ≤ gap k j)
    ⟨fun h => ⟨h.1, h.2.1, h.2.2⟩, fun h => ⟨h.runnable, h.least, h.first⟩⟩

theorem visitedTo_zero (P : Slot → Proc) : visitedTo P 0 = P := rfl

theorem visitedTo_self (P : Slot → Proc) (i : Slot) : visitedTo P i i = P i := if_neg (lt_irrefl _)

theorem visitedTo_nproc (P : Slot → Proc) : visitedTo P nproc = fun j => schedulerVisit (P j) :=
  funext fun j => if_pos j.isLt

theorem visitedTo_succ (P : Slot → Proc) (i : Slot) :
    update (visitedTo P i) i (schedulerVisit (P i)) = visitedTo P (i.val + 1) := by
  funext j
  unfold visitedTo
  by_cases hj : j = i
  · subst hj
    rw [update_self, if_pos (Nat.lt_succ_self _)]
  · rw [update_of_ne hj]
    have hne : j.val ≠ i.val := fun h => hj (Fin.ext h)
    by_cases hlt : j.val < i.val
    · rw [if_pos hlt, if_pos (by omega)]
    · rw [if_neg hlt, if_neg (by omega)]

theorem better_le (p : Proc) (best : Int) (found : Bool) : (better p best found).1 ≤ best := by
  unfold better
  split
  · rename_i h
    exact h.2.le
  · exact le_refl _

theorem better_le_priority {p : Proc} (h : p.state = .runnable) (best : Int) (found : Bool) :
    (better p best found).1 ≤ p.priority := by
  unfold better
  split
  · exact le_refl _
  · rename_i hno
    by_contra hlt
    exact hno ⟨h, by omega⟩

theorem Seen.zero (P : Slot → Proc) : Seen P 0 (priorityMax + 1) false where
  le := fun j hj => by omega
  attained := by simp
  nothing := fun _ => ⟨rfl, fun j hj => by omega⟩

/-- One iteration of the first scan. -/
theorem Seen.visit {i : Slot} (h : Seen P i best found)
    (hP : ∀ j, (P j).state = .runnable → (P j).priority ≤ priorityMax) :
    Seen P (i.val + 1) (better (schedulerVisit (P i)) best found).1
      (better (schedulerVisit (P i)) best found).2 := by
  have hsplit : ∀ j : Slot, j.val < i.val + 1 → j.val < i.val ∨ j = i := by
    intro j hj
    rcases Nat.lt_succ_iff_lt_or_eq.mp hj with hlt | heq
    · exact Or.inl hlt
    · exact Or.inr (Fin.ext heq)
  have hstate := schedulerVisit_state (P i)
  have hprio : (schedulerVisit (P i)).priority ≤ (P i).priority := by
    rcases schedulerVisit_priority (P i) with h1 | h1 <;> omega
  have hle : ∀ j : Slot, j.val < i.val + 1 → (P j).state = .runnable →
      (better (schedulerVisit (P i)) best found).1 ≤ (schedulerVisit (P j)).priority := by
    intro j hj hr
    rcases hsplit j hj with hlt | rfl
    · exact le_trans (better_le _ _ _) (h.le j hlt hr)
    · exact better_le_priority (by rw [hstate, hr]) _ _
  refine ⟨hle, ?_, ?_⟩
  · unfold better
    split
    · rename_i hb
      exact fun _ => ⟨i, Nat.lt_succ_self _, by rw [← hstate]; exact hb.1, rfl⟩
    · intro hf
      obtain ⟨j, hj, hr, hp⟩ := h.attained hf
      exact ⟨j, by omega, hr, hp⟩
  · unfold better
    split
    · simp
    · rename_i hb
      intro hf
      obtain ⟨hbest, hnone⟩ := h.nothing hf
      refine ⟨hbest, fun j hj hr => ?_⟩
      rcases hsplit j hj with hlt | rfl
      · exact hnone j hlt hr
      · refine hb ⟨by rw [hstate, hr], ?_⟩
        have := hP j hr
        omega

theorem Seen.runnable_iff {i : Nat} (h : Seen P i best found) (hi : nproc ≤ i) :
    found = true ↔ ∃ j, (P j).state = .runnable := by
  constructor
  · intro hf
    obtain ⟨j, -, hr, -⟩ := h.attained hf
    exact ⟨j, hr⟩
  · rintro ⟨j, hr⟩
    by_contra hf
    exact (h.nothing (Bool.eq_false_of_not_eq_true hf)).2 j (by omega) hr

/-- The slot at which the second scan stops is the chosen one. -/
theorem chosen_of_passed {o : Slot} (h : Seen P nproc best found) (hpass : Passed P k o best)
    (hr : (P (k + o)).state = .runnable) (hp : (schedulerVisit (P (k + o))).priority = best) :
    Chosen P k (k + o) := by
  refine ⟨hr, fun j hj => ?_, fun j hj hjp => ?_⟩
  · rw [hp]
    exact h.le j j.isLt hj
  · rw [gap_add]
    by_contra hlt
    have hk : k + (j - k) = j := add_sub_cancel k j
    refine hpass (j - k) (by unfold gap at hlt; omega) ?_
    rw [hk]
    exact ⟨hj, by rw [hjp, hp]⟩

/-- The second scan stops somewhere. -/
theorem Passed.lt_nproc {o : Nat} (h : Seen P nproc best true) (hpass : Passed P k o best) : o < nproc := by
  by_contra hge
  obtain ⟨j, -, hr, hp⟩ := h.attained rfl
  have hk : k + (j - k) = j := add_sub_cancel k j
  refine hpass (j - k) (by have := (j - k).isLt; omega) ?_
  rw [hk]
  exact ⟨hr, hp⟩

theorem Passed.next {o : Slot} (h : Passed P k o best)
    (hno : ¬ ((P (k + o)).state = .runnable ∧ (schedulerVisit (P (k + o))).priority = best)) :
    Passed P k (o.val + 1) best := by
  intro o' ho'
  rcases Nat.lt_succ_iff_lt_or_eq.mp ho' with hlt | heq
  · exact h o' hlt
  · rwa [Fin.ext heq]

end Choice

/-! ## A pass with interference -/

/-- `best_priority` of the pass a scheduler is in. -/
def SchedLoc.best : SchedLoc → Option Int
  | .scan _ best _ | .scanIn _ best _ | .select _ best | .selectIn _ best => some best
  | _ => none

/-- The scheduler of `c` is in no pass, or in one whose `best_priority` is at most `b`. -/
def BestLe (b : Int) (s : State n) (c : Fin n) : Prop :=
  ∀ best, (s.cpu c).loc.best = some best → best ≤ b

theorem scanAfter_best {i : Slot} {best b : Int} {found : Bool}
    (h : (scanAfter i best found).best = some b) : b = best := by
  unfold scanAfter at h
  split at h
  · exact (Option.some.inj h).symm
  · split at h
    · exact (Option.some.inj h).symm
    · cases h

theorem selectAfter_best {o : Slot} {best b : Int} (h : (selectAfter o best).best = some b) :
    b = best := by
  unfold selectAfter at h
  split at h
  · exact (Option.some.inj h).symm
  · cases h

section Interference
variable {s t : State n} {c d : Fin n} {ch : Choice} {b : Int}

/-- `best_priority` only falls until the scheduler is back at the head of its loop. -/
theorem BestLe.step (hb : BestLe b s c) (h : Xv6.step s (d, ch) = some t)
    (htop : (s.cpu c).loc ≠ .top) : BestLe b t c := by
  intro best hbest
  by_cases hd : c = d
  · subst hd
    have hsched := sched_step h
    generalize writeOf s (c, ch) = w at hsched
    cases hsched with
    | stay hloc => exact hb best (by rw [← hloc, hbest])
    | start _ hloc' => rw [hloc'] at hbest; cases hbest
    | pass hloc => exact absurd hloc htop
    | scan hloc hloc' => exact hb best (by rw [hloc]; rw [hloc'] at hbest; exact hbest)
    | @visit i best' found hloc hloc' =>
      rw [hloc'] at hbest
      rw [scanAfter_best hbest]
      exact le_trans (better_le _ _ _) (hb best' (by rw [hloc]; rfl))
    | select hloc hloc' => exact hb best (by rw [hloc]; rw [hloc'] at hbest; exact hbest)
    | dispatch _ _ _ _ hloc' => rw [hloc'] at hbest; cases hbest
    | @skip _ _ best' hloc _ _ hloc' =>
      rw [hloc'] at hbest
      rw [selectAfter_best hbest]
      exact hb best' (by rw [hloc]; rfl)
    | swtch _ hloc' => rw [hloc'] at hbest; cases hbest
    | back _ hloc' => rw [hloc'] at hbest; cases hbest
    | wfi _ hloc' => rw [hloc'] at hbest; cases hbest
  · rw [cpu_of_ne h hd] at hbest
    exact hb best hbest

theorem BestLe.run {ls : List (Label n)} (hb : BestLe b s c) (h : Automaton.run Xv6.step s ls = some t)
    (htop : Always Xv6.step (fun s => (s.cpu c).loc ≠ .top) s ls) : BestLe b t c := by
  induction ls generalizing s with
  | nil =>
    cases h
    exact hb
  | cons l ls ih =>
    obtain ⟨u, hu, h⟩ := run_cons_eq_some.mp h
    exact ih (hb.step hu htop.1) h (htop.2 u hu)

/-- **A dispatch under interference.** What a pass dispatches is RUNNABLE, and its priority is at most
the priority, after aging, of each slot that was RUNNABLE when the pass's first scan visited it. -/
theorem dispatch_le_seen {u u' v : State n} {i p : Slot} {ch' : Choice} {ms : List (Label n)}
    (hvisit : Xv6.step u (c, ch) = some u') (hw : writeOf u (c, ch) = some (i, .visit))
    (hr : (u.proc i).state = .runnable) (hrun : Automaton.run Xv6.step u' ms = some v)
    (hpass : Always Xv6.step (fun s => (s.cpu c).loc ≠ .top) u' ms)
    (hd : writeOf v (c, ch') = some (p, .dispatch)) (hs : (Xv6.step v (c, ch')).isSome) :
    (v.proc p).state = .runnable ∧ (v.proc p).priority ≤ (schedulerVisit (u.proc i)).priority := by
  have hb : BestLe (schedulerVisit (u.proc i)).priority u' c := by
    have hsched := sched_step hvisit
    rw [hw] at hsched
    cases hsched with
    | stay _ _ _ hno => exact absurd rfl (hno i).1
    | visit hloc hloc' =>
      intro best hbest
      rw [hloc'] at hbest
      rw [scanAfter_best hbest]
      exact better_le_priority (by rw [schedulerVisit_state, hr]) _ _
  obtain ⟨t, ht⟩ := Option.isSome_iff_exists.mp hs
  have hsched := sched_step ht
  rw [hd] at hsched
  cases hsched with
  | stay _ _ _ hno => exact absurd rfl (hno p).2
  | dispatch hloc _ hstate hbest =>
    refine ⟨hstate, ?_⟩
    rw [hbest]
    exact hb.run hrun hpass _ (by rw [hloc]; rfl)

end Interference

/-! ## A pass that the other CPUs leave alone -/

/-- CPU `c` is in a pass that began with table `P` and `next_index = k`. -/
def QuietAt (P : Slot → Proc) (k : Slot) (s : State n) (c : Fin n) : Prop :=
  (s.cpu c).nextIndex = k ∧
    match (s.cpu c).loc with
    | .scan i best found | .scanIn i best found =>
      s.proc = visitedTo P i ∧ Seen P i best found
    | .select o best | .selectIn o best =>
      s.proc = visitedTo P nproc ∧ Seen P nproc best true ∧ Passed P k o best
    | _ => False

/-- How the pass ends: with a dispatch, or at `wfi`. -/
inductive PassEnd (P : Slot → Proc) (k : Slot) (t : State n) (c : Fin n) :
    Option (Slot × Op) → Prop
  | dispatch {p : Slot} (hp : Chosen P k p) (hproc : t.proc = afterPass P p)
      (hloc : (t.cpu c).loc = .switched p) : PassEnd P k t c (some (p, .dispatch))
  | idle {w : Option (Slot × Op)} (hnone : ∀ j, (P j).state ≠ .runnable) (hproc : t.proc = P)
      (hloc : (t.cpu c).loc = .wfi) (hw : ∀ j, w ≠ some (j, .dispatch)) : PassEnd P k t c w

section Quiet
variable {P : Slot → Proc} {k : Slot} {s t : State n} {c d : Fin n} {ch : Choice}

theorem QuietAt.visit {i : Slot} {best : Int} {found : Bool} (hq : QuietAt P k s c)
    (hP : ∀ j, (P j).state = .runnable → (P j).priority ≤ priorityMax)
    (hloc : (s.cpu c).loc = .scanIn i best found)
    (hloc' : (t.cpu c).loc = scanAfter i (better (schedulerVisit (s.proc i)) best found).1
      (better (schedulerVisit (s.proc i)) best found).2)
    (hidx : (t.cpu c).nextIndex = (s.cpu c).nextIndex)
    (hproc : t.proc = update s.proc i (schedulerVisit (s.proc i))) :
    QuietAt P k t c ∨ PassEnd P k t c (some (i, .visit)) := by
  obtain ⟨hk, hq⟩ := hq
  rw [hloc] at hq
  obtain ⟨htab, hseen⟩ := hq
  have hi : s.proc i = P i := by rw [htab, visitedTo_self]
  rw [hi] at hloc'
  rw [hi, htab, visitedTo_succ] at hproc
  have hseen' := hseen.visit hP
  unfold scanAfter at hloc'
  split at hloc'
  · left
    refine ⟨by rw [hidx, hk], ?_⟩
    rw [hloc']
    exact ⟨hproc, hseen'⟩
  · -- the last slot: on to the second scan, or to wfi
    have hlast : i.val + 1 = nproc := by have := i.isLt; omega
    rw [hlast] at hseen' hproc
    split at hloc'
    · rename_i hf
      left
      refine ⟨by rw [hidx, hk], ?_⟩
      rw [hloc']
      exact ⟨hproc, hf ▸ hseen', fun o ho => absurd ho (Nat.not_lt_zero _)⟩
    · rename_i hf
      right
      have hnone : ∀ j, (P j).state ≠ .runnable := fun j hr =>
        hf ((hseen'.runnable_iff (le_refl _)).mpr ⟨j, hr⟩)
      refine .idle hnone ?_ hloc' (by simp)
      rw [hproc, visitedTo_nproc]
      exact funext fun j => schedulerVisit_of_not_runnable (hnone j)

theorem QuietAt.step (hq : QuietAt P k s c)
    (hP : ∀ j, (P j).state = .runnable → (P j).priority ≤ priorityMax)
    (h : Xv6.step s (d, ch) = some t) (hquiet : d ≠ c → t.proc = s.proc) :
    QuietAt P k t c ∨ (d = c ∧ PassEnd P k t c (writeOf s (d, ch))) := by
  by_cases hd : c = d
  · subst hd
    have htab := step_table h
    have hsched := sched_step h
    generalize writeOf s (c, ch) = w at hsched htab ⊢
    have hq' := hq
    obtain ⟨hk, hq⟩ := hq
    cases hsched with
    | stay _ _ hat =>
      exfalso
      rcases hat with hat | hat | ⟨p, hat⟩ <;> rw [hat] at hq <;> exact hq
    | start hloc => rw [hloc] at hq; exact hq.elim
    | pass hloc => rw [hloc] at hq; exact hq.elim
    | scan hloc hloc' hidx =>
      rw [hloc] at hq
      left
      refine ⟨by rw [hidx, hk], ?_⟩
      rw [hloc', htab]
      exact hq
    | visit hloc hloc' hidx =>
      exact (hq'.visit hP hloc hloc' hidx htab).imp id fun h => ⟨rfl, h⟩
    | select hloc hloc' hidx =>
      rw [hloc] at hq
      left
      refine ⟨by rw [hidx, hk], ?_⟩
      rw [hloc', htab]
      exact hq
    | @dispatch o i best hloc hi hstate hbest hloc' =>
      rw [hloc] at hq
      obtain ⟨hall, hseen, hpass⟩ := hq
      rw [visitedTo_nproc] at hall
      rw [hk] at hi
      rw [hall] at hstate hbest
      rw [schedulerVisit_state] at hstate
      subst hi
      right
      refine ⟨rfl, .dispatch (chosen_of_passed hseen hpass hstate hbest) ?_ hloc'⟩
      rw [htab, hall]
      rfl
    | @skip o i best hloc hi hno hloc' hidx =>
      rw [hloc] at hq
      obtain ⟨hall, hseen, hpass⟩ := hq
      rw [hk] at hi
      rw [hall, visitedTo_nproc, schedulerVisit_state] at hno
      subst hi
      have hpass' := hpass.next hno
      have hlt := hpass'.lt_nproc hseen
      left
      refine ⟨by rw [hidx, hk], ?_⟩
      unfold selectAfter at hloc'
      rw [dif_pos hlt] at hloc'
      rw [hloc', htab]
      exact ⟨hall, hseen, hpass'⟩
    | swtch hloc => rw [hloc] at hq; exact hq.elim
    | back hloc => rw [hloc] at hq; exact hq.elim
    | wfi hloc => rw [hloc] at hq; exact hq.elim
  · left
    unfold QuietAt
    rw [cpu_of_ne h hd, hquiet (Ne.symm hd)]
    exact hq

/-- CPU `c` is in one of the two scans. -/
def InPass (s : State n) (c : Fin n) : Prop := (s.cpu c).loc.best.isSome

theorem QuietAt.inPass (hq : QuietAt P k s c) : InPass s c := by
  obtain ⟨-, hq⟩ := hq
  unfold InPass
  split at hq
  all_goals first | exact hq.elim | simp [*, SchedLoc.best]

theorem PassEnd.not_inPass {w : Option (Slot × Op)} (h : PassEnd P k t c w) : ¬ InPass t c := by
  unfold InPass
  cases h with
  | dispatch _ _ hloc => simp [hloc, SchedLoc.best]
  | idle _ _ hloc => simp [hloc, SchedLoc.best]

theorem quietAt_pass (h : Xv6.step s (c, ch) = some t) (htop : (s.cpu c).loc = .top)
    (hpass : InPass t c) : QuietAt s.proc (s.cpu c).nextIndex t c := by
  have htab := step_table h
  have hsched := sched_step h
  generalize writeOf s (c, ch) = w at hsched htab
  cases hsched with
  | stay hloc => simp [InPass, hloc, htop, SchedLoc.best] at hpass
  | pass hloc hloc' hidx =>
    refine ⟨hidx, ?_⟩
    rw [hloc', htab]
    exact ⟨(visitedTo_zero _).symm, Seen.zero _⟩
  | start hloc => rw [htop] at hloc; cases hloc
  | scan hloc => rw [htop] at hloc; cases hloc
  | visit hloc => rw [htop] at hloc; cases hloc
  | select hloc => rw [htop] at hloc; cases hloc
  | dispatch hloc => rw [htop] at hloc; cases hloc
  | skip hloc => rw [htop] at hloc; cases hloc
  | swtch hloc => rw [htop] at hloc; cases hloc
  | back hloc => rw [htop] at hloc; cases hloc
  | wfi hloc => rw [htop] at hloc; cases hloc

/-- The other CPUs leave the table alone. -/
def LeavesTable (c : Fin n) (s : State n) (l : Label n) (t : State n) : Prop := l.1 ≠ c → t.proc = s.proc

theorem QuietAt.run {ls : List (Label n)} (hq : QuietAt P k s c)
    (hP : ∀ j, (P j).state = .runnable → (P j).priority ≤ priorityMax)
    (h : Automaton.run Xv6.step s ls = some t) (hin : Always Xv6.step (fun s => InPass s c) s ls)
    (hquiet : Each Xv6.step (LeavesTable c) s ls) : QuietAt P k t c := by
  induction ls generalizing s with
  | nil =>
    cases h
    exact hq
  | cons l ls ih =>
    obtain ⟨u, hu, h⟩ := run_cons_eq_some.mp h
    refine ih ?_ h (hin.2 u hu) (hquiet u hu).2
    rcases hq.step hP hu (hquiet u hu).1 with hq' | ⟨-, hend⟩
    · exact hq'
    · exact absurd (hin.2 u hu).head hend.not_inPass

/-- **A quiet pass.** A pass of CPU `c`, from the head of its loop to the step that ends it, during
which the other CPUs leave the table alone: it ends as `PassEnd` says. -/
theorem quiet_pass {s' u : State n} {ls : List (Label n)} {l : Label n}
    (hP : ∀ j, (s.proc j).state = .runnable → (s.proc j).priority ≤ priorityMax) (htop : (s.cpu c).loc = .top)
    (hbegin : Xv6.step s (c, ch) = some s') (hrun : Automaton.run Xv6.step s' ls = some u)
    (hin : Always Xv6.step (fun s => InPass s c) s' ls) (hlast : Xv6.step u l = some t) (hout : ¬ InPass t c)
    (hquiet : Each Xv6.step (LeavesTable c) s' (ls ++ [l])) :
    l.1 = c ∧ PassEnd s.proc (s.cpu c).nextIndex t c (writeOf u l) := by
  obtain ⟨hq1, hq2⟩ := Each.append.mp hquiet
  have hu := (quietAt_pass hbegin htop hin.head).run hP hrun hin hq1
  have hl := (hq2 u hrun t hlast).1
  rcases hu.step hP hlast hl with h | h
  · exact absurd h.inPass hout
  · exact h

end Quiet

/-- Until the scheduler is back at the head of its loop it stays with the process it dispatched. -/
theorem dispatched_step {d : Fin n} {ch : Choice} (hp : (s.cpu c).loc.proc = some p) (h : step s (d, ch) = some t) :
    (t.cpu c).loc.proc = some p ∨ ((t.cpu c).loc = .top ∧ (t.cpu c).nextIndex = p + 1) := by
  by_cases hd : c = d
  · subst hd
    have hsched := sched_step h
    generalize writeOf s (c, ch) = w at hsched
    cases hsched with
    | stay hloc => exact Or.inl (by rw [hloc, hp])
    | swtch hloc hloc' => exact Or.inl (by rw [hloc', ← hp, hloc]; rfl)
    | back hloc hloc' hidx =>
      rw [hloc] at hp
      exact Or.inr ⟨hloc', by rw [hidx, Option.some.inj hp]⟩
    | start hloc => rw [hloc] at hp; cases hp
    | pass hloc => rw [hloc] at hp; cases hp
    | scan hloc => rw [hloc] at hp; cases hp
    | visit hloc => rw [hloc] at hp; cases hp
    | select hloc => rw [hloc] at hp; cases hp
    | dispatch hloc => rw [hloc] at hp; cases hp
    | skip hloc => rw [hloc] at hp; cases hp
    | wfi hloc => rw [hloc] at hp; cases hp
  · rw [cpu_of_ne h hd]
    exact Or.inl hp

theorem nextIndex_of_back {ls : List (Label n)} {l : Label n} {u : State n} (hp : (s.cpu c).loc.proc = some p)
    (hrun : run step s ls = some u) (htop : Always step (fun s => (s.cpu c).loc ≠ .top) s ls) (h : step u l = some t)
    (hback : (t.cpu c).loc = .top) : (t.cpu c).nextIndex = p + 1 := by
  induction ls generalizing s with
  | nil =>
    cases hrun
    rcases dispatched_step hp h with h' | h'
    · rw [hback] at h'
      cases h'
    · exact h'.2
  | cons m ls ih =>
    obtain ⟨v, hv, hrun⟩ := run_cons_eq_some.mp hrun
    rcases dispatched_step hp hv with h' | h'
    · exact ih h' hrun (htop.2 v hv)
    · exact absurd h'.1 (htop.2 v hv).head

/-! ## A CPU that runs alone completes its pass -/

/-- The state with CPU `c` at `l` of its scheduler and process table `P`. -/
def State.sched (s : State n) (c : Fin n) (l : SchedLoc) (P : Slot → Proc) : State n :=
  { s with proc := P, cpu := update s.cpu c { s.cpu c with loc := l } }

/-- The state in which CPU `c` has dispatched `p`, holding its lock. -/
def State.dispatched (s : State n) (c : Fin n) (p : Slot) (P : Slot → Proc) : State n :=
  { s with
    proc := P
    cpu := update s.cpu c
      { s.cpu c with loc := .switched p, proc := some p, noff := (s.cpu c).noff + 1 }
    lock := Owner.update s.lock c (some (.proc p)) [] }

/-- A step of CPU `c` that leaves nothing open, and writes at most a scheduler's visit. -/
def Scans (c : Fin n) (s : State n) (l : Label n) (_ : State n) : Prop :=
  l = (c, .run) ∧ ∀ i op, writeOf s l = some (i, op) → op = .visit

/-- CPU `c`, running alone, gets from `s` to `t` by the visits of its scans. -/
abbrev Stretch (c : Fin n) (s t : State n) : Prop := Path step (Scans c) s t

section Solo
variable {s : State n} {c : Fin n} {P : Slot → Proc} {p : Slot}

theorem solo_visit {i : Slot} (best : Int) (found : Bool) (hfree : s.lock (.proc i) = none) :
    Stretch c (s.sched c (.scan i best found) (visitedTo P i))
      (s.sched c (scanAfter i (better (schedulerVisit (P i)) best found).1
        (better (schedulerVisit (P i)) best found).2) (visitedTo P (i.val + 1))) := by
  refine ⟨[(c, .run), (c, .run)], ?_, ?_⟩
  · rw [← visitedTo_succ]
    simp [run, step, next, State.sched, nextAcquire, nextScan, State.apply, State.move, State.setCpu, hfree,
      Owner.update_acquire_release hfree, Op.apply, visitedTo_self]
  · simp [Each, Scans, writeOf, step, next, State.sched, nextAcquire, nextScan, State.apply, State.move,
      State.setCpu, hfree]

theorem solo_skip (o : Slot) (best : Int) (hfree : s.lock (.proc ((s.cpu c).nextIndex + o)) = none)
    (hno : ¬ ((P ((s.cpu c).nextIndex + o)).state = .runnable ∧
      (P ((s.cpu c).nextIndex + o)).priority = best)) :
    Stretch c (s.sched c (.select o best) P) (s.sched c (selectAfter o best) P) := by
  refine ⟨[(c, .run), (c, .run)], ?_, ?_⟩
  · simp [run, step, next, State.sched, nextAcquire, nextSelect, State.apply, State.move, State.setCpu, hfree,
      Owner.update_acquire_release hfree, hno]
  · simp [Each, Scans, writeOf, step, next, State.sched, nextAcquire, nextSelect, State.apply,
      State.move, State.setCpu, hfree, hno]

/-- The second scan stops at a slot: the lock is taken, and the next step dispatches. -/
theorem solo_dispatch {o : Slot} {best : Int} (hp : p = (s.cpu c).nextIndex + o) (hfree : s.lock (.proc p) = none)
    (hgo : (P p).state = .runnable ∧ (P p).priority = best) :
    ∃ u, Stretch c (s.sched c (.select o best) P) u ∧ u.proc = P ∧
      writeOf u (c, .run) = some (p, .dispatch) ∧
      step u (c, .run) = some (s.dispatched c p (update P p (schedulerDispatch (P p)))) := by
  subst hp
  let u : State n :=
    { s with
      proc := P
      cpu := update s.cpu c
        { s.cpu c with loc := .selectIn o best, noff := (s.cpu c).noff + 1 }
      lock := Owner.update s.lock c (some (.proc ((s.cpu c).nextIndex + o))) [] }
  refine ⟨u, Path.single (l := (c, .run)) ?_ ⟨rfl, ?_⟩, rfl, ?_, ?_⟩
  · simp [u, step, next, State.sched, nextAcquire, State.apply, State.move, State.setCpu, hfree]
  · simp [writeOf, next, State.sched, nextAcquire, hfree]
  · simp [u, writeOf, next, nextSelect, hgo]
  · simp [u, step, next, State.dispatched, nextSelect, State.apply, State.move, State.setCpu, hgo, Op.apply]

/-- The first scan to its end. -/
theorem solo_scan (hP : ∀ j, (P j).state = .runnable → (P j).priority ≤ priorityMax)
    (hfree : ∀ j, s.lock (.proc j) = none) (hsome : ∃ j, (P j).state = .runnable) (m : Nat) (i : Slot)
    (hm : i.val + m + 1 = nproc) {best : Int} {found : Bool} (h : Seen P i best found) :
    ∃ best', Seen P nproc best' true ∧ Stretch c (s.sched c (.scan i best found) (visitedTo P i))
      (s.sched c (.select 0 best') (visitedTo P nproc)) := by
  have hstep := solo_visit (s := s) (c := c) (P := P) best found (hfree i)
  have h' := h.visit hP
  unfold scanAfter at hstep
  induction m generalizing i best found with
  | zero =>
    have hlast : i.val + 1 = nproc := hm
    have hf := (h'.runnable_iff hlast.ge).mpr hsome
    rw [hf, dif_neg (by omega), if_pos rfl, hlast] at hstep
    rw [hf, hlast] at h'
    exact ⟨_, h', hstep⟩
  | succ m ih =>
    have hlt : i.val + 1 < nproc := by omega
    rw [dif_pos hlt] at hstep
    obtain ⟨best', hseen, hrest⟩ := ih ⟨i.val + 1, hlt⟩ (by dsimp only; omega) h'
      (solo_visit _ _ (hfree _)) (h'.visit hP)
    exact ⟨best', hseen, hstep.trans hrest⟩

/-- The second scan to the offset at which it stops. -/
theorem solo_select (hfree : ∀ j, s.lock (.proc j) = none) {best : Int} (hseen : Seen P nproc best true)
    (m : Nat) (o : Slot) (hm : o.val + m + 1 = nproc) (hpass : Passed P (s.cpu c).nextIndex o best) :
    ∃ u p, Chosen P (s.cpu c).nextIndex p ∧
      Stretch c (s.sched c (.select o best) (visitedTo P nproc)) u ∧ u.proc = visitedTo P nproc ∧
      writeOf u (c, .run) = some (p, .dispatch) ∧
      step u (c, .run) = some (s.dispatched c p (afterPass P p)) := by
  have hstop : ∀ o : Slot, Passed P (s.cpu c).nextIndex o best →
      ((P ((s.cpu c).nextIndex + o)).state = .runnable ∧
        (schedulerVisit (P ((s.cpu c).nextIndex + o))).priority = best) →
      ∃ u p, Chosen P (s.cpu c).nextIndex p ∧
        Stretch c (s.sched c (.select o best) (visitedTo P nproc)) u ∧ u.proc = visitedTo P nproc ∧
        writeOf u (c, .run) = some (p, .dispatch) ∧
        step u (c, .run) = some (s.dispatched c p (afterPass P p)) := by
    intro o hpass hgo
    rw [visitedTo_nproc]
    obtain ⟨u, h⟩ := solo_dispatch (s := s) (c := c) (P := fun j => schedulerVisit (P j)) rfl (hfree _)
      ⟨(schedulerVisit_state _).trans hgo.1, hgo.2⟩
    exact ⟨u, _, chosen_of_passed hseen hpass hgo.1 hgo.2, h⟩
  induction m generalizing o with
  | zero =>
    refine hstop o hpass ?_
    by_contra hno
    have := (hpass.next hno).lt_nproc hseen
    omega
  | succ m ih =>
    by_cases hgo : (P ((s.cpu c).nextIndex + o)).state = .runnable ∧
        (schedulerVisit (P ((s.cpu c).nextIndex + o))).priority = best
    · exact hstop o hpass hgo
    · have hlt : o.val + 1 < nproc := by omega
      have hskip := solo_skip (s := s) (c := c) (P := visitedTo P nproc) o best (hfree _)
        (by rwa [visitedTo_nproc, schedulerVisit_state])
      unfold selectAfter at hskip
      rw [dif_pos hlt] at hskip
      obtain ⟨u, p, hp, hrest, h⟩ := ih ⟨o.val + 1, hlt⟩ (by dsimp only; omega) (hpass.next hgo)
      exact ⟨u, p, hp, hskip.trans hrest, h⟩

/-- **A CPU that runs alone.** From the head of its loop, with the locks of the slots free and some
slot RUNNABLE, it comes to dispatch the chosen slot. -/
theorem solo_pass (hP : ∀ j, (s.proc j).state = .runnable → (s.proc j).priority ≤ priorityMax)
    (htop : (s.cpu c).loc = .top) (hirq : (s.cpu c).irq = []) (hfree : ∀ j, s.lock (.proc j) = none)
    (hsome : ∃ j, (s.proc j).state = .runnable) :
    ∃ u p, Chosen s.proc (s.cpu c).nextIndex p ∧ Stretch c s u ∧ u.proc = visitedTo s.proc nproc ∧
      writeOf u (c, .run) = some (p, .dispatch) ∧
      step u (c, .run) = some (s.dispatched c p (afterPass s.proc p)) := by
  have hbegin : Stretch c s (s.sched c (.scan 0 (priorityMax + 1) false) (visitedTo s.proc 0)) := by
    refine Path.single (l := (c, .run)) ?_ ⟨rfl, ?_⟩
    · simp [step, next, htop, nextTop, hirq, State.apply, State.move, State.setCpu, State.sched,
        visitedTo_zero]
    · simp [writeOf, next, htop, nextTop, hirq]
  obtain ⟨best, hseen, hscan⟩ := solo_scan (s := s) (c := c) hP hfree hsome 63 0 rfl (Seen.zero s.proc)
  obtain ⟨u, p, hp, hsel, h⟩ := solo_select hfree hseen 63 0 rfl (fun o ho => absurd ho (Nat.not_lt_zero _))
  exact ⟨u, p, hp, (hbegin.trans hscan).trans hsel, h⟩

/-- CPU `c` is at the head of its loop and free to run its pass alone. -/
def Ready (s : State n) (c : Fin n) : Prop :=
  ((s.cpu c).loc = .top ∧ (s.cpu c).irq = []) ∧ (∀ j, s.lock (.proc j) = none) ∧
    ∀ j, (s.proc j).state = .runnable → (s.proc j).priority ≤ priorityMax

instance : Decidable (Ready s c) := inferInstanceAs (Decidable (_ ∧ _ ∧ _))

theorem Ready.pass (h : Ready s c) (hp : Chosen s.proc (s.cpu c).nextIndex p) :
    ∃ u, Stretch c s u ∧ u.proc = visitedTo s.proc nproc ∧ writeOf u (c, .run) = some (p, .dispatch) ∧
      step u (c, .run) = some (s.dispatched c p (afterPass s.proc p)) := by
  obtain ⟨u, q, hq, hu⟩ := solo_pass h.2.2 h.1.1 h.1.2 h.2.1 ⟨p, hp.runnable⟩
  obtain rfl := hq.unique hp
  exact ⟨u, hu⟩

theorem Ready.reachable (h : Ready s c) (hp : Chosen s.proc (s.cpu c).nextIndex p) (hs : Reachable s) :
    Reachable (s.dispatched c p (afterPass s.proc p)) := by
  obtain ⟨u, ⟨ls, hrun, -⟩, -, -, hstep⟩ := h.pass hp
  exact (Automaton.Reachable.trans hs hrun).next hstep

/-- A CPU on its way through a pass executes no other code. -/
theorem Stretch.idle {t : State n} (h : Stretch c s t) (hs : Reachable s) (hcode : s.code c = [])
    (hme : s.me c = none) : Path step (fun s l _ => s.code l.1 = []) s t := by
  obtain ⟨ls, hrun, hscan⟩ := h
  have hidle : Always step (fun s => Reachable s ∧ s.code c = [] ∧ s.me c = none) s ls := by
    refine Each.always (hscan.imp ?_) ⟨hs, hcode, hme⟩
    rintro u l t hstep ⟨rfl, hw⟩ ⟨hu, hcode, hme⟩
    refine ⟨Automaton.Reachable.next hu hstep, ?_⟩
    obtain ⟨e, hcs, hwe, -, -⟩ := (inv_of_reachable hu).code_step hstep
    rw [hwe] at hw
    cases hcs with
    | exec hx =>
      rw [hcode, hme] at hx
      cases hx with
      | enter hno => cases hno
    | interrupt hx => simp [interrupt] at hx
    | panic _ hno => cases hcode.symm.trans hno
    | dispatch => cases hw _ _ rfl
    | swtch _ hno => cases hcode.symm.trans hno
    | boot => cases hw _ _ rfl
    | idle _ _ hcode' hme' => exact ⟨hcode', hme'⟩
  refine ⟨ls, hrun, (hscan.and_always hidle).imp ?_⟩
  rintro u l t - ⟨⟨-, hcode, -⟩, rfl, -⟩
  exact hcode

theorem Ready.idle_pass (h : Ready s c) (hp : Chosen s.proc (s.cpu c).nextIndex p) (hs : Reachable s) :
    Path step (fun s l _ => s.code l.1 = []) s (s.dispatched c p (afterPass s.proc p)) := by
  obtain ⟨u, hscan, -, hw, hstep⟩ := h.pass hp
  have hidle := hscan.idle hs (by rw [code_top h.1.1, h.1.2]) (me_top h.1.1)
  refine hidle.trans (Path.single hstep ?_)
  have hsched := sched_step hstep
  rw [hw] at hsched
  cases hsched with
  | stay _ _ _ hno => exact absurd rfl (hno p).2
  | dispatch hloc => simp [State.code, hloc]

end Solo

/-! ## The scheduling decision -/

theorem dispatch_runnable {ch : Choice} (h : step s (c, ch) = some t) (hw : writeOf s (c, ch) = some (p, .dispatch)) :
    (s.proc p).state = .runnable ∧ (t.cpu c).loc = .switched p := by
  have hsched := sched_step h
  rw [hw] at hsched
  cases hsched with
  | stay _ _ _ hno => exact absurd rfl (hno p).2
  | dispatch _ _ hstate _ hloc' => exact ⟨hstate, hloc'⟩

/-- Nothing is dispatched in the step. -/
def NoDispatch (s : State n) (l : Label n) (_ : State n) : Prop := ∀ i, writeOf s l ≠ some (i, .dispatch)

/-- Inside a pass nothing is dispatched. -/
theorem no_dispatch_inPass {ls : List (Label n)} (h : run step s ls = some t)
    (hin : Always step (fun s => InPass s c) s ls) (hquiet : Each step (LeavesTable c) s ls) :
    Each step NoDispatch s ls := by
  induction ls generalizing s with
  | nil => trivial
  | cons l ls ih =>
    obtain ⟨u, hu, h⟩ := run_cons_eq_some.mp h
    intro v hv
    rw [hu] at hv
    cases hv
    refine ⟨fun p hw => ?_, ih h (hin.2 u hu) (hquiet u hu).2⟩
    obtain ⟨d, ch⟩ := l
    obtain ⟨hstate, hloc⟩ := dispatch_runnable hu hw
    by_cases hd : d = c
    · subst hd
      have := (hin.2 u hu).head
      rw [InPass, hloc] at this
      cases this
    · -- a dispatch is a change of the table
      have htab := step_table hu
      rw [hw, (hquiet u hu).1 hd] at htab
      have hp := congrFun htab p
      rw [tableAfter, update_self] at hp
      rw [hp] at hstate
      cases hstate

/-- **The scheduling decision.** Under any interference a dispatched process is RUNNABLE, with a
priority at most the priority after aging of every slot that was RUNNABLE when the pass visited it. A
pass that the other CPUs leave alone dispatches at its end, and only there, the chosen slot, if there is
a RUNNABLE slot, and nothing otherwise; `next_index` is its successor when the process comes back. A
CPU that runs alone completes its pass. -/
theorem scheduling_decision (c : Fin n) :
    (∀ (s t : State n) ch p, step s (c, ch) = some t → writeOf s (c, ch) = some (p, .dispatch) →
      (s.proc p).state = .runnable ∧
      ∀ (u u' : State n) ch' i ms, step u (c, ch') = some u' → writeOf u (c, ch') = some (i, .visit) →
        (u.proc i).state = .runnable → run step u' ms = some s →
        Always step (fun s => (s.cpu c).loc ≠ .top) u' ms →
        (s.proc p).priority ≤ (schedulerVisit (u.proc i)).priority) ∧
    (∀ (s s' u t : State n) ch ls l,
      (∀ j, (s.proc j).state = .runnable → (s.proc j).priority ≤ priorityMax) →
      (s.cpu c).loc = .top → step s (c, ch) = some s' →
      run step s' ls = some u → Always step (fun s => InPass s c) s' ls →
      step u l = some t → ¬ InPass t c → Each step (LeavesTable c) s' (ls ++ [l]) →
      ((∃ p, writeOf u l = some (p, .dispatch)) ↔ ∃ j, (s.proc j).state = .runnable) ∧
      Each step NoDispatch s' ls ∧
      (∀ p, writeOf u l = some (p, .dispatch) →
        Chosen s.proc (s.cpu c).nextIndex p ∧ t.proc = afterPass s.proc p ∧
        ∀ ms m u' t', run step t ms = some u' → Always step (fun s => (s.cpu c).loc ≠ .top) t ms →
          step u' m = some t' → (t'.cpu c).loc = .top → (t'.cpu c).nextIndex = p + 1) ∧
      ((∀ p, writeOf u l ≠ some (p, .dispatch)) → t.proc = s.proc)) ∧
    (∀ s : State n, (∀ j, (s.proc j).state = .runnable → (s.proc j).priority ≤ priorityMax) →
      (s.cpu c).loc = .top → (s.cpu c).irq = [] → (∀ j, s.lock (.proc j) = none) →
      (∃ j, (s.proc j).state = .runnable) →
      ∃ u p, Chosen s.proc (s.cpu c).nextIndex p ∧ Stretch c s u ∧
        writeOf u (c, .run) = some (p, .dispatch) ∧
        step u (c, .run) = some (s.dispatched c p (afterPass s.proc p))) := by
  refine ⟨?_, ?_, ?_⟩
  · intro s t ch p h hw
    refine ⟨(dispatch_runnable h hw).1, ?_⟩
    intro u u' ch' i ms hu hvis hr hrun hpass
    exact (dispatch_le_seen hu hvis hr hrun hpass hw (by rw [h]; rfl)).2
  · intro s s' u t ch ls l hP htop hbegin hrun hin hlast hout hquiet
    obtain ⟨-, hend⟩ := quiet_pass hP htop hbegin hrun hin hlast hout hquiet
    have hnone := no_dispatch_inPass hrun hin (Each.append.mp hquiet).1
    generalize writeOf u l = w at hend ⊢
    cases hend with
    | @dispatch p hp hproc hloc =>
      refine ⟨⟨fun _ => ⟨p, hp.runnable⟩, fun _ => ⟨p, rfl⟩⟩, hnone, ?_, fun h => absurd rfl (h p)⟩
      intro q hq
      cases hq
      refine ⟨hp, hproc, ?_⟩
      intro ms m u' t' hrun' htop' hm hback
      exact nextIndex_of_back (by rw [hloc]; rfl) hrun' htop' hm hback
    | idle hno hproc hloc hw =>
      refine ⟨⟨?_, ?_⟩, hnone, fun p hp => absurd hp (hw p), fun _ => hproc⟩
      · rintro ⟨p, hp⟩
        exact absurd hp (hw p)
      · rintro ⟨j, hj⟩
        exact absurd hj (hno j)
  · intro s hP htop hirq hfree hsome
    obtain ⟨u, p, hp, hst, -, h⟩ := solo_pass hP htop hirq hfree hsome
    exact ⟨u, p, hp, hst, h⟩

/-- The machine of `booted` when its CPU has dispatched the first process. -/
def started : State 1 := booted.dispatched 0 0 (afterPass booted.proc 0)

theorem reachable_started : Reachable started :=
  Ready.reachable (by decide) (by decide) reachable_booted

/-- `fork()`, when `slot` is the first free slot. -/
def forkInto (slot : Nat) : List (Label 1) :=
  [(0, .fork)] ++ List.replicate (2 * slot + 1) (0, .run) ++
    [(0, .alloc 1 1), (0, .run), (0, .run), (0, .copy true)] ++ List.replicate 5 (0, .run)

/-- The timer interrupts the running process, and its scheduler returns to the head of the loop. -/
def timeSlice (c : Fin n) : List (Label n) := [(c, .timer)] ++ List.replicate 4 (c, .run)

/-- The first process (slot 0) has made a child (slot 1) and yielded. -/
def oneChild : State 1 := runD step started ([(0, .run)] ++ forkInto 1 ++ timeSlice 0)

/-- Both are RUNNABLE at priority 10, and `next_index` is past the parent, so the child is chosen. -/
theorem scheduling_decision_oneChild :
    ((oneChild.proc 0).state = .runnable ∧ (oneChild.proc 0).priority = (oneChild.proc 1).priority) ∧
    ∃ u, Stretch 0 oneChild u ∧ writeOf u (0, .run) = some (1, .dispatch) ∧
      step u (0, .run) = some (oneChild.dispatched 0 1 (afterPass oneChild.proc 1)) := by
  obtain ⟨u, p, hp, hst, hw, h⟩ := (scheduling_decision (0 : Fin 1)).2.2 oneChild (by decide) (by decide)
    (by decide) (by decide) ⟨0, by decide⟩
  obtain rfl : p = 1 := hp.unique (by decide)
  exact ⟨by decide, u, hst, hw, h⟩

end Xv6
