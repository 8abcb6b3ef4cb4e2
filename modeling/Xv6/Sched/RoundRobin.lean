import Xv6.Sched.Starvation

/-!
# Round robin among processes of one priority

The second scan of `scheduler()` starts at `next_index`, the successor of the slot that the CPU
dispatched last. While slot `y` waits at priority `q`, the CPU dispatches `x` at `q` a second time only
after `y`, as long as `next_index` stays on the way from `x` to `y`: `round_robin`. The dispatch of a
better process from a slot beyond `y` takes `next_index` past `y`: `round_robin_overtaken`.
-/

namespace Xv6
open Function

open Wrap Automaton

variable {n : Nat} {s t : State n} {c : Fin n}

/-- Position `k` lies after `x` on the way to `y`. -/
def Past (x y k : Slot) : Prop := gap k y < gap x y

/-- The scheduler of `c` between two dispatches of `x`, while `y` waits at priority `q`. -/
def TurnOf (x y : Slot) (q : Int) (s : State n) (c : Fin n) : Prop :=
  match (s.cpu c).loc with
  | .top | .wfi => Past x y (s.cpu c).nextIndex
  | .scan i best _ | .scanIn i best _ => Past x y (s.cpu c).nextIndex ∧ (y < i → best ≤ q)
  | .select o best | .selectIn o best =>
    Past x y (s.cpu c).nextIndex ∧ best ≤ q ∧ (best = q → o.val ≤ gap (s.cpu c).nextIndex y)
  | .switched i | .back i => Past x y (i + 1)
  | .boot => False

/-- The processes that CPU `c` dispatches at a priority better than `q` sit from `x` on before `y`. -/
def BetterBefore (x y : Slot) (q : Int) (c : Fin n) (s : State n) (l : Label n) (_ : State n) : Prop :=
  ∀ z, l.1 = c → writeOf s l = some (z, .dispatch) → (s.proc z).priority < q → gap z y ≤ gap x y

section Step
variable {s t : State n} {c : Fin n} {x y : Slot} {q : Int}

theorem past_succ {z : Slot} (hz : gap z y ≤ gap x y) (hne : z ≠ y) : Past x y (z + 1) := by
  have := gap_pos hne
  unfold Past
  rw [gap_succ_left hne]
  omega

/-- The second scan stops at a slot of priority `q` before `y`. -/
theorem past_of_offset {k o : Slot} (hk : Past x y k) (ho : o.val ≤ gap k y) (hne : k + o ≠ y) :
    Past x y (k + o + 1) := by
  have hlt : o.val < gap k y := lt_of_le_of_ne ho fun h => hne (add_eq_of_gap h)
  unfold Past at hk ⊢
  rw [gap_add_one hlt]
  omega

/-- The second scan does not come to `x` before `y`. -/
theorem offset_ne {k o : Slot} (hk : Past x y k) (ho : o.val ≤ gap k y) : k + o ≠ x := by
  intro h
  have hd := gap_of_add ho
  rw [h] at hd
  unfold Past at hk
  omega

theorem TurnOf.step {l : Label n} (hx : TurnOf x y q s c) (h : Xv6.step s l = some t)
    (hy : (s.proc y).state = .runnable ∧ (s.proc y).priority = q)
    (hy' : (t.proc y).state = .runnable ∧ (t.proc y).priority = q)
    (hbetter : BetterBefore x y q c s l t) : TurnOf x y q t c := by
  obtain ⟨d, ch⟩ := l
  by_cases hd : c = d
  · subst hd
    have htab := step_table h
    have hsched := sched_step h
    have hbetter' := fun z => hbetter z rfl
    generalize writeOf s (c, ch) = w at htab hsched hbetter'
    unfold TurnOf at hx ⊢
    cases hsched with
    | stay hloc hidx hat =>
      rw [hloc, hidx]
      exact hx
    | start hloc => rw [hloc] at hx; exact hx.elim
    | pass hloc hloc' hidx =>
      rw [hloc] at hx
      rw [hloc', hidx]
      exact ⟨hx, fun hlt => absurd hlt (Fin.not_lt_zero y)⟩
    | scan hloc hloc' hidx =>
      rw [hloc] at hx
      rw [hloc', hidx]
      exact hx
    | @visit i best found hloc hloc' hidx =>
      rw [hloc] at hx
      rw [hloc', hidx]
      have hle : y.val < i.val + 1 → (better (schedulerVisit (s.proc i)) best found).1 ≤ q := by
        intro hlt
        by_cases hi : i = y
        · subst hi
          have hp := hy'.2
          rw [htab, tableAfter, update_self] at hp
          rw [← hp]
          exact better_le_priority (by rw [schedulerVisit_state, hy.1]) _ _
        · have hne : y.val ≠ i.val := fun h => hi (Fin.ext h.symm)
          exact le_trans (better_le _ _ _) (hx.2 (Fin.lt_def.mpr (by omega)))
      unfold scanAfter
      by_cases hlast : i.val + 1 < nproc
      · rw [dif_pos hlast]
        exact ⟨hx.1, fun hlt => hle (Fin.lt_def.mp hlt)⟩
      · rw [dif_neg hlast]
        split_ifs
        · exact ⟨hx.1, hle (by have := y.isLt; omega), fun _ => Nat.zero_le _⟩
        · exact hx.1
    | select hloc hloc' hidx =>
      rw [hloc] at hx
      rw [hloc', hidx]
      exact hx
    | @dispatch o i best hloc hi hstate hbest hloc' =>
      rw [hloc] at hx
      rw [hloc']
      have hiy : i ≠ y := by
        rintro rfl
        have := hy'.1
        rw [htab, tableAfter, update_self] at this
        cases this
      obtain ⟨hpast, hle, hoff⟩ := hx
      rcases lt_or_eq_of_le hle with hlt | heq
      · exact past_succ (hbetter' i rfl (by rw [hbest]; exact hlt)) hiy
      · subst hi
        exact past_of_offset hpast (hoff heq) hiy
    | @skip o i best hloc hi hno hloc' hidx =>
      rw [hloc] at hx
      rw [hloc', hidx]
      obtain ⟨hpast, hle, hoff⟩ := hx
      unfold selectAfter
      by_cases hlast : o.val + 1 < nproc
      · rw [dif_pos hlast]
        refine ⟨hpast, hle, fun heq => ?_⟩
        -- `y` itself would not have been passed over
        refine Nat.succ_le_of_lt (lt_of_le_of_ne (hoff heq) fun h => hno ?_)
        rw [hi, add_eq_of_gap h]
        exact ⟨hy.1, by rw [hy.2, heq]⟩
      · rw [dif_neg hlast]
        exact hpast
    | swtch hloc hloc' =>
      rw [hloc] at hx
      rw [hloc']
      exact hx
    | back hloc hloc' hidx =>
      rw [hloc] at hx
      rw [hloc', hidx]
      exact hx
    | wfi hloc hloc' hidx =>
      rw [hloc] at hx
      rw [hloc', hidx]
      exact hx
  · unfold TurnOf
    rw [cpu_of_ne h hd]
    exact hx

theorem TurnOf.run {ls : List (Label n)} (hx : TurnOf x y q s c) (h : Automaton.run Xv6.step s ls = some t)
    (hy : Always Xv6.step (fun s => (s.proc y).state = .runnable ∧ (s.proc y).priority = q) s ls)
    (hbetter : Each Xv6.step (BetterBefore x y q c) s ls) : TurnOf x y q t c := by
  induction ls generalizing s with
  | nil =>
    cases h
    exact hx
  | cons l ls ih =>
    obtain ⟨u, hu, h⟩ := run_cons_eq_some.mp h
    exact ih (hx.step hu hy.1 (hy.2 u hu).head (hbetter u hu).1) h (hy.2 u hu) (hbetter u hu).2

/-- `x` is not dispatched at priority `q` while it is the turn of `y`. -/
theorem TurnOf.not_dispatch {ch : Choice} (hx : TurnOf x y q s c) (h : Xv6.step s (c, ch) = some t)
    (hw : writeOf s (c, ch) = some (x, .dispatch)) : (s.proc x).priority ≠ q := by
  intro hq
  have hsched := sched_step h
  rw [hw] at hsched
  cases hsched with
  | stay _ _ _ hno => exact (hno x).2 rfl
  | dispatch hloc hi _ hbest =>
    unfold TurnOf at hx
    rw [hloc] at hx
    exact offset_ne hx.1 (hx.2.2 (by rw [← hbest, hq])) hi.symm

end Step

/-- **Round robin.** CPU `c` dispatches `x`, and dispatches it again at priority `q`. A slot `y` that is
RUNNABLE after the first dispatch, and keeps priority `q` until the second, is dispatched in between, if
the processes that `c` dispatches in between at a better priority sit from `x` on before `y`. -/
theorem round_robin {s' u : State n} {x y : Slot} {q : Int} {ch ch' : Choice} {ls : List (Label n)} (hs : Reachable s)
    (hfirst : step s (c, ch) = some s') (hx : writeOf s (c, ch) = some (x, .dispatch)) (hrun : run step s' ls = some u)
    (hsecond : step u (c, ch') = some t) (hx' : writeOf u (c, ch') = some (x, .dispatch)) (hq : (u.proc x).priority = q)
    (hy : (s'.proc y).state = .runnable) (hyq : Always step (fun s => (s.proc y).priority = q) s' ls)
    (hbetter : Each step (BetterBefore x y q c) s' ls) :
    Sometime step (fun s l _ => writeOf s l = some (y, .dispatch)) s' ls := by
  have hs' : Reachable s' := Automaton.Reachable.next hs hfirst
  rcases each_or_sometime (Q := fun s l _ => writeOf s l ≠ some (y, .dispatch)) hrun with hnone | hsome
  · exfalso
    have hne : x ≠ y := by
      rintro rfl
      have htab := step_table hfirst
      rw [hx] at htab
      rw [htab, tableAfter, update_self] at hy
      cases hy
    have hloc := (dispatch_runnable hfirst hx).2
    have hturn : TurnOf x y q s' c := by
      unfold TurnOf
      rw [hloc]
      exact past_succ (le_refl _) hne
    have hwait := (runnable_run hs' hrun hy hnone).and hyq
    exact (hturn.run hrun hwait hbetter).not_dispatch hsecond hx' hq
  · obtain ⟨ks, l, ms, v, w, hls, hv, hw, hn⟩ := hsome
    exact ⟨ks, l, ms, v, w, hls, hv, hw, not_not.mp hn⟩

/-! ## Two processes that take turns

After `oneChild`, each runs for a time slice. -/

/-- The running process goes to sleep, and its scheduler returns to the head of the loop. -/
def fallAsleep : List (Label 1) :=
  [(0, .sleepPrepare (.addr 1)), (0, .run), (0, .run), (0, .sleep)] ++ List.replicate 4 (0, .run)

def slice : List (Label 1) := [(0, .run)] ++ timeSlice 0

def childRuns : State 1 := oneChild.dispatched 0 1 (afterPass oneChild.proc 1)

def childYielded : State 1 := runD step childRuns slice

def parentRuns : State 1 := childYielded.dispatched 0 0 (afterPass childYielded.proc 0)

def parentYielded : State 1 := runD step parentRuns slice

/-- A step that does not free slot 0 or set its priority, and dispatches at priority 10 at best. -/
def Plain (s : State n) (l : Label n) (t : State n) : Prop :=
  ¬ SetsPriority 0 s l ∧ ((s.proc 0).state ≠ .unused → (t.proc 0).state ≠ .unused) ∧
    (writeOf s l).all fun x => x.2 ≠ .dispatch ∨ 10 ≤ (s.proc x.1).priority

instance (s : State n) (l : Label n) (t : State n) : Decidable (Plain s l t) :=
  inferInstanceAs (Decidable (_ ∧ _ ∧ _))

theorem scans_state {l : Label n} (h : step s l = some t) (hs : Scans c s l t) (w : Slot) :
    (t.proc w).state = (s.proc w).state := by
  have htab := step_table h
  cases hw : writeOf s l with
  | none => rw [htab, hw, tableAfter]
  | some x =>
    have hop := hs.2 x.1 x.2 hw
    rw [htab, hw, tableAfter]
    by_cases hx : w = x.1
    · subst hx
      rw [update_self, hop]
      exact schedulerVisit_state _
    · rw [update_of_ne hx]

theorem plain_of_scans (s : State n) (l : Label n) (t : State n) (h : step s l = some t) (hs : Scans c s l t) :
    Plain s l t := by
  refine ⟨?_, fun hl => by rwa [scans_state h hs], ?_⟩
  · rintro ⟨op, hw, hp⟩
    rw [hs.2 0 op hw] at hp
    cases hp
  · cases hw : writeOf s l with
    | none => rfl
    | some x => simp [hs.2 x.1 x.2 hw]

/-- What the runs of this scenario come to. -/
theorem turnFacts :
    ((run step started ([(0, .run)] ++ forkInto 1 ++ timeSlice 0)).isSome = true ∧
      (run step childRuns slice).isSome = true ∧ (run step parentRuns slice).isSome = true) ∧
    (Ready oneChild 0 ∧ Chosen oneChild.proc (oneChild.cpu 0).nextIndex 1) ∧
    (Ready childYielded 0 ∧ Chosen childYielded.proc (childYielded.cpu 0).nextIndex 0) ∧
    (Ready parentYielded 0 ∧ Chosen parentYielded.proc (parentYielded.cpu 0).nextIndex 1) ∧
    (Each step Plain childRuns slice ∧ Each step Plain parentRuns slice) ∧
    ((parentRuns.proc 0).state ≠ .unused ∧ (childRuns.proc 0).state = .runnable ∧ (childRuns.proc 0).priority = 10) ∧
    10 ≤ (visitedTo childYielded.proc nproc 0).priority ∧ (visitedTo parentYielded.proc nproc 0).priority = 10 ∧
    (visitedTo parentYielded.proc nproc 1).priority = 10 := by
  decide +kernel

theorem round_robin_turns : ∃ (s' u : State 1) (ls : List (Label 1)), run step s' ls = some u ∧
    writeOf u (0, .run) = some (1, .dispatch) ∧
    Sometime step (fun s l _ => writeOf s l = some (0, .dispatch)) s' ls := by
  obtain ⟨⟨hfork, hslice, hslice'⟩, ⟨hready1, hchosen1⟩, ⟨hready2, hchosen2⟩, ⟨hready3, hchosen3⟩, ⟨hplain1, hplain2⟩,
    ⟨hlive', hrunnable, hten⟩, hten2, hten3, hq⟩ := turnFacts
  obtain ⟨s, ⟨ls1, hrun1, -⟩, -, hw1, hstep1⟩ := hready1.pass hchosen1
  obtain ⟨v, hscan2, hproc2, hw2, hstep2⟩ := hready2.pass hchosen2
  obtain ⟨u, hscan3, hproc3, hw3, hstep3⟩ := hready3.pass hchosen3
  have hchild : Reachable oneChild := Automaton.Reachable.trans reachable_started (run_eq_runD hfork)
  have hreach : Reachable s := Automaton.Reachable.trans hchild hrun1
  have hpath : Path step Plain childRuns u := by
    have hA : Path step Plain childRuns childYielded := ⟨slice, run_eq_runD hslice, hplain1⟩
    have hB : Path step Plain parentRuns parentYielded := ⟨slice, run_eq_runD hslice', hplain2⟩
    rw [← hproc2] at hten2
    have hdispatch : Path step Plain v parentRuns :=
      Path.single hstep2 ⟨by simp [SetsPriority, hw2, Op.setsPriority], fun _ => hlive', by simp [hw2, hten2]⟩
    have hscan : ∀ {a b : State 1}, Stretch 0 a b → Path step Plain a b := Path.imp plain_of_scans
    exact (((hA.trans (hscan hscan2)).trans hdispatch).trans hB).trans (hscan hscan3)
  obtain ⟨ls, hrun, hplain⟩ := hpath
  have hfirst : Reachable childRuns := Automaton.Reachable.next hreach hstep1
  have hlive : Always step (fun s => (s.proc 0).state ≠ .unused) childRuns ls :=
    Each.always (hplain.imp fun _ _ _ _ h => h.2.1) (by rw [hrunnable]; decide)
  have hprio := priority_const hfirst hrun hlive (hplain.imp fun _ _ _ _ h => h.1)
    (by rw [hproc3, hten3, hten])
  rw [hten] at hprio
  rw [← hproc3] at hq
  refine ⟨childRuns, u, ls, hrun, hw3, round_robin hreach hstep1 hw1 hrun hstep3 hw3 hq hrunnable
    hprio (hplain.imp fun a l b _ h z _ hw hlt => ?_)⟩
  have hall := h.2.2
  rw [hw] at hall
  simp at hall
  omega

/-! ## How a better process breaks the turn

On one CPU, the first process (slot 0) makes two children (slots 1 and 2) and goes to sleep. Slot 1 is
dispatched, makes a child of its own (slot 3), gives it a better priority and yields. Slot 3 is
dispatched, which takes `next_index` past slot 2, and goes to sleep. Slot 1 is dispatched again. -/

def twoChildren : State 1 := runD step started ([(0, .run)] ++ forkInto 1 ++ forkInto 2 ++ fallAsleep)

def firstTurn : State 1 := twoChildren.dispatched 0 1 (afterPass twoChildren.proc 1)

def promote : List (Label 1) :=
  [(0, .run)] ++ forkInto 3 ++ [(0, .setpriority 4 5)] ++ List.replicate 9 (0, .run) ++ timeSlice 0

def betterChild : State 1 := runD step firstTurn promote

def overtaking : State 1 := betterChild.dispatched 0 3 (afterPass betterChild.proc 3)

def runAndSleep : List (Label 1) := [(0, .run)] ++ fallAsleep

def secondTurn : State 1 := runD step overtaking runAndSleep

/-- The step neither dispatches `w` nor sets its priority. -/
def Spares (w : Slot) (s : State n) (l : Label n) (_ : State n) : Prop :=
  writeOf s l ≠ some (w, .dispatch) ∧ ¬ SetsPriority w s l

instance (w : Slot) (s : State n) (l : Label n) (t : State n) : Decidable (Spares w s l t) :=
  inferInstanceAs (Decidable (_ ∧ _))

theorem spares_of_scans {w : Slot} {l : Label n} (h : Scans c s l t) : Spares w s l t := by
  constructor
  · intro hw
    cases h.2 w _ hw
  · rintro ⟨op, hw, hp⟩
    rw [h.2 w op hw] at hp
    cases hp

/-- What the runs of this scenario come to. -/
theorem overtakeFacts :
    ((run step started ([(0, .run)] ++ forkInto 1 ++ forkInto 2 ++ fallAsleep)).isSome = true ∧
      (run step firstTurn promote).isSome = true ∧ (run step overtaking runAndSleep).isSome = true) ∧
    (Ready twoChildren 0 ∧ Chosen twoChildren.proc (twoChildren.cpu 0).nextIndex 1) ∧
    (Ready betterChild 0 ∧ Chosen betterChild.proc (betterChild.cpu 0).nextIndex 3) ∧
    (Ready secondTurn 0 ∧ Chosen secondTurn.proc (secondTurn.cpu 0).nextIndex 1) ∧
    (Each step (Spares 2) firstTurn promote ∧ Each step (Spares 2) overtaking runAndSleep) ∧
    ((firstTurn.proc 2).state = .runnable ∧ (firstTurn.proc 2).priority = 10) ∧
    (visitedTo twoChildren.proc nproc 1).priority = 10 ∧ (visitedTo secondTurn.proc nproc 1).priority = 10 ∧
    (visitedTo secondTurn.proc nproc 2).priority = 10 := by
  decide +kernel

/-- **The turn is broken.** Slot 1 is dispatched twice at priority 10, and slot 2 waits at priority 10 all
the while. -/
theorem round_robin_overtaken : ∃ (s s' u t : State 1) (ls : List (Label 1)), Reachable s ∧
    (step s (0, .run) = some s' ∧ writeOf s (0, .run) = some (1, .dispatch) ∧ (s.proc 1).priority = 10) ∧
    run step s' ls = some u ∧
    (step u (0, .run) = some t ∧ writeOf u (0, .run) = some (1, .dispatch) ∧ (u.proc 1).priority = 10) ∧
    Always step (fun s => (s.proc 2).state = .runnable ∧ (s.proc 2).priority = 10) s' ls ∧
    Each step (fun s l _ => writeOf s l ≠ some (2, .dispatch)) s' ls := by
  obtain ⟨⟨hforks, hpromote, hsleep⟩, ⟨hready1, hchosen1⟩, ⟨hready2, hchosen2⟩, ⟨hready3, hchosen3⟩,
    ⟨hspares1, hspares2⟩, ⟨hrunnable, hten⟩, hfirst10, hsecond10, hten2⟩ := overtakeFacts
  obtain ⟨s, ⟨ls1, hrun1, -⟩, hproc1, hw1, hstep1⟩ := hready1.pass hchosen1
  obtain ⟨v, hscan2, -, hw2, hstep2⟩ := hready2.pass hchosen2
  obtain ⟨u, hscan3, hproc3, hw3, hstep3⟩ := hready3.pass hchosen3
  have htwo : Reachable twoChildren := Automaton.Reachable.trans reachable_started (run_eq_runD hforks)
  have hreach : Reachable s := Automaton.Reachable.trans htwo hrun1
  have hscan : ∀ {a b : State 1}, Stretch 0 a b → Path step (Spares 2) a b :=
    Path.imp fun _ _ _ _ h => spares_of_scans h
  have hpath : Path step (Spares 2) firstTurn u := by
    have hA : Path step (Spares 2) firstTurn betterChild := ⟨promote, run_eq_runD hpromote, hspares1⟩
    have hB : Path step (Spares 2) overtaking secondTurn := ⟨runAndSleep, run_eq_runD hsleep, hspares2⟩
    have hdispatch : Path step (Spares 2) v overtaking := Path.single hstep2 (by simp [Spares, SetsPriority, hw2])
    exact (((hA.trans (hscan hscan2)).trans hdispatch).trans hB).trans (hscan hscan3)
  obtain ⟨ls, hrun, hspares⟩ := hpath
  have hfirst : Reachable firstTurn := Automaton.Reachable.next hreach hstep1
  have hwait := runnable_run (w := 2) hfirst hrun hrunnable (hspares.imp fun _ _ _ _ h => h.1)
  have hprio := priority_const hfirst hrun (hwait.imp fun _ h => by rw [h]; simp)
    (hspares.imp fun _ _ _ _ h => h.2) (by rw [hproc3, hten2, hten])
  rw [hten] at hprio
  rw [← hproc1] at hfirst10
  rw [← hproc3] at hsecond10
  exact ⟨s, firstTurn, u, _, ls, hreach, ⟨hstep1, hw1, hfirst10⟩, hrun, ⟨hstep3, hw3, hsecond10⟩,
    hwait.and hprio, hspares.imp fun _ _ _ _ h => h.1⟩

end Xv6
