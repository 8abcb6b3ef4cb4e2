import Xv6.Proc.Stack
import Xv6.Sched.RoundRobin

/-!
# Kills and sleepers

The loops of `kwait()`, `piperead()`, `pipewrite()`, `consoleread()` and `sys_pause()` call `killed()` before they
sleep. The test, `sleep_prepare()` and `sleep()` are three critical sections of `p->lock`.

* `Checked st` : the thread has found itself not killed and has not gone to sleep yet;
* `SparesChecked` : the step is not `kkill()` marking a process that is there;
* `kill_wakes` : in a run of such steps nobody sleeps in one of the loops and is killed;
* `kill_slept_through` : a process killed between its test and `sleep()` goes to sleep.
-/

namespace Xv6

variable {n : Nat}

/-- The frames of an interruptible loop from its `killed()` test up to `sleep()`. -/
def Frame.checked : Frame → Bool
  | .waitRelease _ => true
  | .loopPre w _ | .loopPrepare w _ | .loopRelease w _ => w.killed ≠ .never
  | .loopCond w _ => w.killed = .before
  | _ => false

/-- The frame of an interruptible loop that `sleep()` returns to. -/
def Frame.interruptible : Frame → Bool
  | .waitWoken _ => true
  | .loopWoken w => w.killed ≠ .never
  | _ => false

def Checked (st : List Frame) : Prop :=
  st.any Frame.checked = true ∨ (.sleep ∈ st ∧ st.any Frame.interruptible = true)

instance (st : List Frame) : Decidable (Checked st) := inferInstanceAs (Decidable (_ ∨ _))

def SparesChecked (s : State n) (l : Label n) (_ : State n) : Prop :=
  ∀ p, writeOf s l = some (p, .kkill) → ¬ Checked (s.stack p)

instance (s : State n) (l : Label n) (t : State n) : Decidable (SparesChecked s l t) :=
  inferInstanceAs (Decidable (∀ p, writeOf s l = some (p, .kkill) → ¬ Checked (s.stack p)))

structure KillOk (s : State n) : Prop where
  checked : ∀ p, Checked (s.stack p) → (s.proc p).killed = false
  asleep : ∀ p, (s.proc p).state = .sleeping → (s.stack p).any Frame.interruptible = true →
    (s.proc p).killed = false

/-! ## The frames a step puts on a stack -/

theorem Frame.checked_scanning (f : Frame) (h : f.scanning = true) : f.checked = false := by
  cases f <;> first | rfl | cases h

theorem Frame.interruptible_scanning (f : Frame) (h : f.scanning = true) : f.interruptible = false := by
  cases f <;> first | rfl | cases h

section Exec
variable {s : State n} {c : Fin n} {me : Option Slot} {ch : Choice} {st st' : List Frame} {e : Effect}

@[simp] theorem checked_skips : Skips Checked := skips fun f st hf => by
  have hne : Frame.sleep ≠ f := by
    rintro rfl
    cases hf
  simp [Checked, f.checked_scanning hf, f.interruptible_scanning hf, hne]

@[simp] theorem checked_nil : ¬ Checked [] := by
  simp [Checked]

@[simp] theorem checked_singleton (f : Frame) : Checked [f] ↔ f.checked = true := by
  cases f <;> simp [Checked, Frame.interruptible]

@[simp] theorem checked_sleep (f : Frame) :
    Checked [.sleep, f] ↔ f.checked = true ∨ f.interruptible = true := by
  simp [Checked, Frame.checked, Frame.interruptible]

/-- The frames that say nothing about the test. -/
def Frame.silent : Frame → Bool
  | .waitRelease _ | .loopPre _ _ | .loopPrepare _ _ | .loopRelease _ _ | .loopCond _ _ => false
  | .waitWoken _ | .loopWoken _ | .sleep => false
  | _ => true

theorem checked_cons {f : Frame} (h : f.silent = true) : Checked (f :: st) ↔ Checked st := by
  cases f
  all_goals simp only [Frame.silent, Bool.false_eq_true] at h
  all_goals simp [Checked, Frame.checked, Frame.interruptible]

/-- A thread that has passed its `killed()` test had passed it before, or was not killed. -/
theorem own_checked {p : Slot} {f : Frame} (hs : StackOk (some p) (f :: st)) (h : own s p ch st f = some (e, st'))
    (hc : Checked st') : Checked (f :: st) ∨ ((s.proc p).killed = false ∧ e.write = none) := by
  obtain ⟨hf, -⟩ := hs
  have hwant : ∀ l r, Checked (.want l :: r) ↔ Checked r := fun _ _ => checked_cons rfl
  have hprepare : ∀ chan r, Checked (.sleepPrepare chan :: r) ↔ Checked r := fun _ _ => checked_cons rfl
  have hpanic : ∀ r, Checked (.panic :: r) ↔ Checked r := fun _ => checked_cons rfl
  have hsched : ∀ r, Checked (.sched :: r) ↔ Checked r := fun _ => checked_cons rfl
  have hunlock : ∀ r, Checked (.unlockSelf :: r) ↔ Checked r := fun _ => checked_cons rfl
  have hyield : ∀ r, Checked (.yield :: r) ↔ Checked r := fun _ => checked_cons rfl
  cases f
  case loopCond w due =>
    obtain rfl : st = [] := hf rfl
    simp only [own] at h
    split_ifs at h
    all_goals cases h
    · simp [Frame.checked] at hc
    · simp [hwant, Frame.checked] at hc
    · left
      cases hk : w.killed <;> simp_all [Frame.checked]
  all_goals simp only [own] at h
  all_goals repeat' (split at h)
  all_goals cases h
  case sleep.isTrue =>
    rcases hf with rfl | ⟨w, rfl⟩ | ⟨addr, rfl⟩ <;> simp [Checked, Frame.checked] at hc
  case sleep.isFalse =>
    rcases hf with rfl | ⟨w, rfl⟩ | ⟨addr, rfl⟩ <;> simp [Checked, Frame.checked] at hc
  all_goals simp only [Frame.Below, Frame.base, forall_const] at hf
  all_goals try subst hf
  all_goals simp_all [Frame.checked, Frame.interruptible]

theorem exec_checked {p : Slot} (hs : StackOk (some p) st) (h : ExecCase s c (some p) ch st e st')
    (hc : Checked st') : Checked st ∨ ((s.proc p).killed = false ∧ e.write = none) := by
  cases h with
  | enter _ h =>
    cases ch
    all_goals simp only [enter] at h
    all_goals repeat' (split at h)
    all_goals cases h
    all_goals simp [Checked, scanFrom, Frame.checked, Frame.interruptible] at hc
  | acquire hfree => exact Or.inl ((checked_cons rfl).mpr hc)
  | twice hheld => exact Or.inl ((checked_cons rfl).mp hc)
  | @visit j i st =>
    left
    rw [checked_cons rfl]
    unfold visit at hc
    dsimp only at hc
    split at hc
    · exact (checked_cons rfl).mp hc
    · rwa [checked_skips.2.1] at hc
  | @hold m due st st' e h =>
    have hhold : ∀ m due r, Checked (.hold m due :: r) ↔ Checked r := fun _ _ _ => checked_cons rfl
    have hloop : ∀ w due r, Checked (.loop w due :: r) ↔ Checked r := fun _ _ _ => checked_cons rfl
    left
    cases ch
    all_goals simp only [hold] at h
    all_goals repeat' (split at h)
    all_goals cases h
    all_goals simpa only [hhold, hloop, checked_skips] using hc
  | own hme h =>
    obtain rfl := Option.some.inj hme
    exact own_checked hs h hc

theorem interrupt_checked (h : interrupt me st ch = some st') : Checked st' ↔ Checked st := by
  cases ch
  all_goals simp only [interrupt] at h
  case timer =>
    obtain ⟨p, -, rfl⟩ := Option.map_eq_some_iff.mp h
    rw [checked_cons rfl, checked_cons rfl]
  all_goals cases h
  · rw [checked_skips.1]
  · rw [checked_cons rfl, checked_cons rfl]

end Exec

/-! ## One step -/

section Step
variable {s t : State n} {c : Fin n} {ch : Choice} {e : Effect} {p : Slot}

theorem StackStep.checked (h : StackStep s t c ch e p) (hs : StackOk (some p) (s.stack p)) (hc : Checked (t.stack p)) :
    Checked (s.stack p) ∨ ((s.proc p).killed = false ∧ e.write = none) := by
  cases h with
  | same h => exact Or.inl (h ▸ hc)
  | born _ h =>
    rw [h] at hc
    simp [Frame.checked] at hc
  | exec _ hx h => exact exec_checked hs hx (h ▸ hc)
  | interrupt _ hx _ h => exact Or.inl ((interrupt_checked hx).mp (h ▸ hc))
  | panic _ hst _ h =>
    rw [hst]
    rw [h] at hc
    exact Or.inl ((checked_cons rfl).mp hc)
  | swtch _ hst _ h =>
    rw [hst]
    rw [h] at hc
    exact Or.inl ((checked_cons rfl).mpr hc)

theorem allocproc_killed (pid : Int) (tf pt : Nat) (p : Proc) :
    (allocproc pid tf pt p).1.killed = p.killed ∨ (allocproc pid tf pt p).1.killed = false := by
  unfold allocproc
  dsimp only
  split_ifs
  · exact Or.inr rfl
  · exact Or.inr rfl
  · exact Or.inl rfl

/-- The writes that mark a process killed. -/
theorem Op.apply_killed (op : Op) (p : Proc) : (op.apply p).killed = p.killed ∨ (op.apply p).killed = false ∨
    op = .kkill ∨ op = .setkilled := by
  cases op with
  | visit => exact Or.inl (by rw [Op.apply, schedulerVisit_eq])
  | allocproc pid tf pt => exact (allocproc_killed pid tf pt p).imp id Or.inl
  | userinit pid tf pt => exact (allocproc_killed pid tf pt p).imp id Or.inl
  | kkill => exact Or.inr (Or.inr (Or.inl rfl))
  | setkilled => exact Or.inr (Or.inr (Or.inr rfl))
  | forkfail => exact Or.inr (Or.inl rfl)
  | reap => exact Or.inr (Or.inl rfl)
  | _ => exact Or.inl rfl

theorem Inv.killed_step (hi : Inv s) (h : Xv6.step s (c, ch) = some t) (hk : (s.proc p).killed = false) :
    (t.proc p).killed = false ∨ writeOf s (c, ch) = some (p, .kkill) ∨
      writeOf s (c, ch) = some (p, .setkilled) := by
  rcases hi.slot_step h p with ⟨-, hq⟩ | ⟨op, hw, -, hq⟩
  · exact Or.inl (by rw [hq, hk])
  · rw [hq]
    rcases op.apply_killed (s.proc p) with ho | ho | rfl | rfl
    · exact Or.inl (by rw [ho, hk])
    · exact Or.inl ho
    · exact Or.inr (Or.inl hw)
    · exact Or.inr (Or.inr hw)

/-- `setkilled()` is called outside the wait loops. -/
theorem stack_of_setkilled (hs : Reachable s) (h : Xv6.step s (c, ch) = some t)
    (hw : writeOf s (c, ch) = some (p, .setkilled)) : (s.proc p).state = .running ∧ s.stack p = [.setkilled] := by
  have hi := inv_of_reachable hs
  refine ⟨?_, ?_⟩
  · cases (hi.tableWrite_of h hw).1 with
    | self _ hrun => exact hrun
    | leave _ _ hop => cases hop
    | scan hop => cases hop
  · rcases hi.writer h hw with h | ⟨f, r, hcode, hf⟩
    · simp at h
    · cases hf with
      | setkilled hme =>
        have hst := stack_of_me hme
        have hok := (stackOk_of_reachable hs).saved p
        rw [hst, hcode] at hok ⊢
        rw [hok.1 rfl]

theorem KillOk.checked_step (h : KillOk s) (hs : Reachable s) (hstep : Xv6.step s (c, ch) = some t)
    (hok : SparesChecked s (c, ch) t) (p : Slot) (hc : Checked (t.stack p)) : (t.proc p).killed = false := by
  have hi := inv_of_reachable hs
  obtain ⟨e, hcs, hwe, -, -⟩ := hi.code_step hstep
  have hbefore := (hcs.stackStep p).checked ((stackOk_of_reachable hs).saved p) hc
  have hk : (s.proc p).killed = false := hbefore.elim (h.checked p) And.left
  rcases hi.killed_step hstep hk with hk | hw | hw
  · exact hk
  · rcases hbefore with hb | ⟨-, hno⟩
    · exact absurd hb (hok p hw)
    · rw [hwe, hno] at hw
      cases hw
  · rcases hbefore with hb | ⟨-, hno⟩
    · rw [(stack_of_setkilled hs hstep hw).2] at hb
      simp [Frame.checked] at hb
    · rw [hwe, hno] at hw
      cases hw

/-- A sleeper's stack changes only by its leaving the CPU. -/
theorem sleeping_stack (hi : Inv s) (hcs : CodeStep s t c ch e) (hp : (s.proc p).state = .sleeping) :
    (t.stack p).any Frame.interruptible = (s.stack p).any Frame.interruptible := by
  rcases hcs.stack_case hi p with h | ⟨h, -⟩ | h | ⟨st, hst, h | h⟩
  · rw [h]
  · rw [h] at hp
    cases hp
  · rw [h] at hp
    cases hp
  · simp [h, hst, Frame.interruptible]
  · simp [h, hst, Frame.interruptible]

theorem exec_sleep {me : Option Slot} {r st' : List Frame} (h : ExecCase s c me ch (.sleep :: r) e st')
    (hw : e.write = some (p, .sleep)) : st' = .sched :: .unlockSelf :: r := by
  cases h with
  | own hme h =>
    simp only [own] at h
    split_ifs at h
    · cases h
      rfl
    · cases h
      cases hw

/-- A process that goes to sleep in a loop has passed its test. -/
theorem checked_of_sleep (hi : Inv s) (hstep : Xv6.step s (c, ch) = some t) (hw : writeOf s (c, ch) = some (p, .sleep))
    (hf : (t.stack p).any Frame.interruptible = true) : Checked (s.stack p) := by
  obtain ⟨e, hcs, hwe, -, -⟩ := hi.code_step hstep
  rw [hwe] at hw
  rcases hcs.writer hw with h | ⟨f, r, hcode, hfw⟩
  · simp at h
  · cases hfw with
    | sleep hme =>
      cases hcs with
      | exec hx _ _ _ hown =>
        rw [hcode] at hx
        rw [hown p hme, exec_sleep hx hw] at hf
        rw [stack_of_me hme, hcode]
        exact Or.inr ⟨List.mem_cons_self, by simpa [Frame.interruptible] using hf⟩
      | interrupt => cases hw
      | panic => cases hw
      | dispatch => cases hw
      | swtch => cases hw
      | boot => cases hw
      | idle hno => cases hcode.symm.trans hno

/-- The writes that leave a slot SLEEPING. -/
theorem Op.apply_sleeping {op : Op} {p : Proc} (h : (op.apply p).state = .sleeping) :
    op = .sleep ∨ (p.state = .sleeping ∧ op ≠ .kkill) := by
  cases op
  case sleep => exact Or.inl rfl
  case visit => exact Or.inr ⟨(schedulerVisit_state p).symm.trans h, by simp⟩
  case wakeup =>
    simp only [Op.apply] at h
    split at h
    · cases h
    · contradiction
  case kkill =>
    simp only [Op.apply] at h
    split at h
    · cases h
    · contradiction
  case allocproc pid tf pt =>
    rw [Op.apply, allocproc_state] at h
    split at h <;> cases h
  all_goals first | exact Or.inr ⟨h, by simp⟩ | cases h

theorem KillOk.asleep_step (h : KillOk s) (hs : Reachable s) (hstep : Xv6.step s (c, ch) = some t) (p : Slot)
    (hp : (t.proc p).state = .sleeping) (hf : (t.stack p).any Frame.interruptible = true) :
    (t.proc p).killed = false := by
  have hi := inv_of_reachable hs
  obtain ⟨e, hcs, hwe, -, -⟩ := hi.code_step hstep
  have hbefore : (s.proc p).state = .sleeping → (s.proc p).killed = false := fun hp' =>
    h.asleep p hp' (sleeping_stack hi hcs hp' ▸ hf)
  rcases hi.slot_step hstep p with ⟨-, hq⟩ | ⟨op, hw, -, hq⟩
  · rw [hq] at hp ⊢
    exact hbefore hp
  · rw [hq] at hp
    rcases Op.apply_sleeping hp with rfl | ⟨hp', hop⟩
    · rw [hq]
      exact h.checked p (checked_of_sleep hi hstep hw hf)
    · rcases hi.killed_step hstep (hbefore hp') with hk | hk | hk
      · exact hk
      · rw [hw] at hk
        cases hk
        exact absurd rfl hop
      · rw [(stack_of_setkilled hs hstep hk).1] at hp'
        cases hp'

theorem KillOk.step (h : KillOk s) (hs : Reachable s) (hstep : Xv6.step s (c, ch) = some t)
    (hok : SparesChecked s (c, ch) t) : KillOk t :=
  ⟨h.checked_step hs hstep hok, h.asleep_step hs hstep⟩

end Step

/-! ## Every run -/

/-- **A kill is not slept through** in a run in which no `kkill()` marks a process between its `killed()` test
and `sleep()`: nobody is killed and asleep in one of the loops. -/
theorem kill_wakes (ls : List (Label n)) (hok : Automaton.Each step SparesChecked (State.init n) ls) :
    Automaton.Always step (fun s => ∀ p, (s.proc p).state = .sleeping →
      ((∃ addr, .waitWoken addr ∈ s.stack p) ∨ ∃ w : WaitLoop, w.killed ≠ .never ∧ .loopWoken w ∈ s.stack p) →
      (s.proc p).killed = false) (State.init n) ls := by
  have hinv : Automaton.Always step (fun s => Reachable s ∧ KillOk s) (State.init n) ls := by
    refine Automaton.Each.always (hok.imp ?_) ⟨Automaton.Reachable.refl _, ?_⟩
    · rintro s ⟨c, ch⟩ t hstep hq ⟨hs, hk⟩
      exact ⟨Automaton.Reachable.next hs hstep, hk.step hs hstep hq⟩
    · exact ⟨fun p _ => rfl, fun p _ _ => rfl⟩
  refine hinv.imp fun s hs p hp hf => hs.2.asleep p hp (List.any_eq_true.mpr ?_)
  rcases hf with ⟨addr, hf⟩ | ⟨w, hw, hf⟩
  · exact ⟨_, hf, rfl⟩
  · exact ⟨_, hf, by simpa [Frame.interruptible] using hw⟩

/-! ## `sys_pause()` and a kill

The first process pauses and goes to sleep. Then the same with a child in slot 1, which the timer interrupts
before `sleep()`; its parent kills it and yields. -/

theorem sparesChecked_of_scans {c : Fin n} (s : State n) (l : Label n) (t : State n) (_ : step s l = some t)
    (hs : Scans c s l t) : SparesChecked s l t := by
  intro p hw
  cases hs.2 p _ hw

/-- `sys_pause(5)` at tick 0, up to `release(&tickslock)`. -/
def pauses : List (Label 1) :=
  [(0, .run), (0, .lock 1), (0, .run), (0, .await (sysPause 1 2 0 5))] ++ List.replicate 9 (0, .run)

def fellAsleep : State 1 := Automaton.runD step started (pauses ++ [(0, .run), (0, .run)])

theorem kill_wakes_fellAsleep : (fellAsleep.proc 0).state = .sleeping ∧
    .loopWoken (sysPause 1 2 0 5) ∈ fellAsleep.stack 0 ∧ (fellAsleep.proc 0).killed = false := by
  have hfacts : Automaton.Each step SparesChecked (State.init 1) [(0, .alloc 1 1), (0, .run)] ∧
      (Automaton.run step started (pauses ++ [(0, .run), (0, .run)])).isSome = true ∧
      Automaton.Each step SparesChecked started (pauses ++ [(0, .run), (0, .run)]) ∧
      (fellAsleep.proc 0).state = .sleeping ∧ .loopWoken (sysPause 1 2 0 5) ∈ fellAsleep.stack 0 := by decide +kernel
  obtain ⟨hbooting, hpauses, hpausing, hstate, hstack⟩ := hfacts
  have hboot : Automaton.Path step SparesChecked (State.init 1) booted :=
    ⟨_, Automaton.run_eq_runD (by decide), hbooting⟩
  obtain ⟨u, hscan, -, hw, hstep⟩ := Ready.pass (s := booted) (c := 0) (p := 0) (by decide) (by decide)
  have hpass : Automaton.Path step SparesChecked booted started :=
    (hscan.imp sparesChecked_of_scans).trans (Automaton.Path.single hstep fun p hp => by simp [hw] at hp)
  have hsleep : Automaton.Path step SparesChecked started fellAsleep := ⟨_, Automaton.run_eq_runD hpauses, hpausing⟩
  obtain ⟨ls, hrun, hok⟩ := (hboot.trans hpass).trans hsleep
  exact ⟨hstate, hstack, (kill_wakes ls hok).last hrun 0 hstate (Or.inr ⟨_, by decide, hstack⟩)⟩

def childPauses : State 1 := Automaton.runD step childRuns (pauses ++ timeSlice 0)

def parentResumes : State 1 := childPauses.dispatched 0 0 (afterPass childPauses.proc 0)

def childKilled : State 1 :=
  Automaton.runD step parentResumes ([(0, .run), (0, .kill 2)] ++ List.replicate 5 (0, .run) ++ timeSlice 0)

def childResumes : State 1 := childKilled.dispatched 0 1 (afterPass childKilled.proc 1)

def childSleeps : State 1 := Automaton.runD step childResumes (List.replicate 5 (0, .run))

/-- **A kill between the test and `sleep()` is slept through.** -/
theorem kill_slept_through : Reachable childSleeps ∧ (childSleeps.proc 1).state = .sleeping ∧
    .loopWoken (sysPause 1 2 0 5) ∈ childSleeps.stack 1 ∧ (childSleeps.proc 1).killed = true := by
  have hruns : (Automaton.run step started ([(0, .run)] ++ forkInto 1 ++ timeSlice 0)).isSome = true ∧
      (Automaton.run step childRuns (pauses ++ timeSlice 0)).isSome = true ∧
      (Automaton.run step parentResumes ([(0, .run), (0, .kill 2)] ++ List.replicate 5 (0, .run) ++
        timeSlice 0)).isSome = true ∧
      (Automaton.run step childResumes (List.replicate 5 (0, .run))).isSome = true := by decide +kernel
  have hpasses : (Ready oneChild 0 ∧ Chosen oneChild.proc (oneChild.cpu 0).nextIndex 1) ∧
      (Ready childPauses 0 ∧ Chosen childPauses.proc (childPauses.cpu 0).nextIndex 0) ∧
      Ready childKilled 0 ∧ Chosen childKilled.proc (childKilled.cpu 0).nextIndex 1 := by decide +kernel
  have hsleeps : (childSleeps.proc 1).state = .sleeping ∧ .loopWoken (sysPause 1 2 0 5) ∈ childSleeps.stack 1 ∧
      (childSleeps.proc 1).killed = true := by decide +kernel
  obtain ⟨hfork, hpauses, hkill, hsleep⟩ := hruns
  obtain ⟨⟨hready1, hchosen1⟩, ⟨hready2, hchosen2⟩, hready3, hchosen3⟩ := hpasses
  have h1 : Reachable oneChild := Automaton.Reachable.trans reachable_started (Automaton.run_eq_runD hfork)
  have h3 : Reachable childPauses :=
    Automaton.Reachable.trans (hready1.reachable hchosen1 h1) (Automaton.run_eq_runD hpauses)
  have h5 : Reachable childKilled :=
    Automaton.Reachable.trans (hready2.reachable hchosen2 h3) (Automaton.run_eq_runD hkill)
  exact ⟨Automaton.Reachable.trans (hready3.reachable hchosen3 h5) (Automaton.run_eq_runD hsleep), hsleeps⟩

end Xv6
