import Xv6.Lib.Wrap
import Xv6.Proc.TableStep

/-!
# The steps of one scheduler

`SchedStep s t c w` lists what a step of CPU `c` does to the scheduler of `c`: where its loop goes,
what becomes of `next_index`, and the write `w` it makes to the table. Steps of the process that runs
on `c`, and of interrupt handlers, leave the scheduler where it is (`stay`).
-/

namespace Xv6

variable {n : Nat} {s : State n} {c : Fin n} {ch : Choice}

inductive SchedStep (s t : State n) (c : Fin n) : Option (Slot × Op) → Prop
  | stay {w : Option (Slot × Op)} (hloc : (t.cpu c).loc = (s.cpu c).loc)
      (hidx : (t.cpu c).nextIndex = (s.cpu c).nextIndex)
      (hat : (s.cpu c).loc = .boot ∨ (s.cpu c).loc = .top ∨ ∃ p, (s.cpu c).loc = .switched p)
      (hw : ∀ i, w ≠ some (i, .visit) ∧ w ≠ some (i, .dispatch)) : SchedStep s t c w
  | start (hloc : (s.cpu c).loc = .boot) (hloc' : (t.cpu c).loc = .top) : SchedStep s t c none
  | pass (hloc : (s.cpu c).loc = .top) (hloc' : (t.cpu c).loc = .scan 0 (priorityMax + 1) false)
      (hidx : (t.cpu c).nextIndex = (s.cpu c).nextIndex) : SchedStep s t c none
  | scan {i : Slot} {best : Int} {found : Bool} (hloc : (s.cpu c).loc = .scan i best found)
      (hloc' : (t.cpu c).loc = .scanIn i best found)
      (hidx : (t.cpu c).nextIndex = (s.cpu c).nextIndex) : SchedStep s t c none
  | visit {i : Slot} {best : Int} {found : Bool} (hloc : (s.cpu c).loc = .scanIn i best found)
      (hloc' : (t.cpu c).loc = scanAfter i (better (schedulerVisit (s.proc i)) best found).1
        (better (schedulerVisit (s.proc i)) best found).2)
      (hidx : (t.cpu c).nextIndex = (s.cpu c).nextIndex) : SchedStep s t c (some (i, .visit))
  | select {offset : Slot} {best : Int} (hloc : (s.cpu c).loc = .select offset best)
      (hloc' : (t.cpu c).loc = .selectIn offset best)
      (hidx : (t.cpu c).nextIndex = (s.cpu c).nextIndex) : SchedStep s t c none
  | dispatch {offset i : Slot} {best : Int} (hloc : (s.cpu c).loc = .selectIn offset best)
      (hi : i = (s.cpu c).nextIndex + offset) (hstate : (s.proc i).state = .runnable)
      (hbest : (s.proc i).priority = best) (hloc' : (t.cpu c).loc = .switched i) :
      SchedStep s t c (some (i, .dispatch))
  | skip {offset i : Slot} {best : Int} (hloc : (s.cpu c).loc = .selectIn offset best)
      (hi : i = (s.cpu c).nextIndex + offset)
      (hno : ¬ ((s.proc i).state = .runnable ∧ (s.proc i).priority = best))
      (hloc' : (t.cpu c).loc = selectAfter offset best)
      (hidx : (t.cpu c).nextIndex = (s.cpu c).nextIndex) : SchedStep s t c none
  | swtch {p : Slot} (hloc : (s.cpu c).loc = .switched p) (hloc' : (t.cpu c).loc = .back p) :
      SchedStep s t c none
  | back {i : Slot} (hloc : (s.cpu c).loc = .back i) (hloc' : (t.cpu c).loc = .top)
      (hidx : (t.cpu c).nextIndex = i + 1) : SchedStep s t c none
  | wfi (hloc : (s.cpu c).loc = .wfi) (hloc' : (t.cpu c).loc = .top)
      (hidx : (t.cpu c).nextIndex = (s.cpu c).nextIndex) : SchedStep s t c none

/-- Only `scheduler()` ages and dispatches. -/
theorem ExecCase.write_ne {me : Option Slot} {st st' : List Frame} {e : Effect} (h : ExecCase s c me ch st e st')
    (i : Slot) : e.write ≠ some (i, .visit) ∧ e.write ≠ some (i, .dispatch) := by
  cases h with
  | enter hme h =>
    cases ch
    all_goals simp only [Xv6.enter] at h
    all_goals repeat' (split at h)
    all_goals cases h
    all_goals simp
  | acquire hfree => exact ⟨by simp, by simp⟩
  | twice hheld => exact ⟨by simp, by simp⟩
  | @visit j k st =>
    simp only [Xv6.visit]
    cases hop : (j.body (s.proc k)).1 with
    | none => simp
    | some op => cases scanWrite_of_body hop <;> simp
  | hold h =>
    cases ch
    all_goals simp only [Xv6.hold] at h
    all_goals repeat' (split at h)
    all_goals cases h
    all_goals simp
  | @own p f st st' e hme h =>
    cases f
    all_goals simp only [Xv6.own] at h
    all_goals repeat' (split at h)
    all_goals cases h
    all_goals simp

/-- **Inversion of a step for the scheduler of the CPU that takes it.** -/
theorem sched_step {t : State n} (h : step s (c, ch) = some t) : SchedStep s t c (writeOf s (c, ch)) := by
  obtain ⟨e, k, hcase, rfl, hw⟩ := step_case h
  rw [hw]
  clear h hw
  cases hcase with
  | boot hloc =>
    exact .stay (by simp [State.move]) (by simp [State.move]) (Or.inl hloc) fun i => ⟨by simp, by simp⟩
  | start hloc => exact .start hloc (by simp [State.move])
  | pass hloc => exact .pass hloc (by simp [State.move]) (by simp [State.move])
  | irqTake hloc =>
    exact .stay (by simp [State.move]) (by simp [State.move]) (Or.inr (Or.inl hloc))
      fun i => ⟨by simp, by simp⟩
  | irqExec hloc _ h =>
    exact .stay (by simp [State.move]) (by simp [State.move]) (Or.inr (Or.inl hloc)) h.write_ne
  | scan hloc => exact .scan hloc (by simp [State.move]) (by simp [State.move])
  | visit hloc => exact .visit hloc (by simp [State.move]) (by simp [State.move])
  | select hloc => exact .select hloc (by simp [State.move]) (by simp [State.move])
  | dispatch hloc hi hstate hbest => exact .dispatch hloc hi hstate hbest (by simp [State.move])
  | skip hloc hi hno => exact .skip hloc hi hno (by simp [State.move]) (by simp [State.move])
  | swtch hloc => exact .swtch hloc (by simp [State.move])
  | @schedPanic p _ hloc =>
    exact .stay (by simp [State.move, State.setStack]) (by simp [State.move, State.setStack])
      (Or.inr (Or.inr ⟨p, hloc⟩)) fun i => ⟨by simp, by simp⟩
  | @interrupt p _ hloc =>
    exact .stay (by simp [State.move, State.setStack]) (by simp [State.move, State.setStack])
      (Or.inr (Or.inr ⟨p, hloc⟩)) fun i => ⟨by simp, by simp⟩
  | @thread p _ _ hloc _ h =>
    exact .stay (by simp [State.move, State.setStack]) (by simp [State.move, State.setStack])
      (Or.inr (Or.inr ⟨p, hloc⟩)) h.write_ne
  | back hloc => exact .back hloc (by simp [State.move]) (by simp [State.move])
  | wfi hloc => exact .wfi hloc (by simp [State.move]) (by simp [State.move])

theorem cpu_of_ne {t : State n} {d : Fin n} (h : step s (d, ch) = some t) (hcd : c ≠ d) :
    t.cpu c = s.cpu c := by
  obtain ⟨e, k, -, rfl, -⟩ := step_case h
  exact step_cpu_ne hcd

end Xv6
