import Xv6.Proc.TableStep

/-!
# The scheduling fields: `state`, `priority`, `wait_ticks`

* `FieldsOk p` : the relation between the three fields, kept by every write;
* `Aged s l t w` : the step lowers the priority of `w` by aging;
* `visits w s ls` : how often the schedulers visit slot `w` in a run while it is RUNNABLE;
* `waitTicks_le_visits` : `wait_ticks` grows by these visits only.
-/

namespace Xv6

variable {n : Nat} {p : Proc} {s t : State n} {l : Label n} {ls : List (Label n)} {w : Slot}

structure FieldsOk (p : Proc) : Prop where
  valid : priorityValid p.priority
  waiting : p.state ≠ .runnable → p.waitTicks = 0
  bound : p.state = .runnable → 0 < p.priority → p.waitTicks ≤ agingInterval

/-! ## What the scheduler's visit does -/

theorem schedulerVisit_of_not_runnable (h : p.state ≠ .runnable) : schedulerVisit p = p := by
  simp [schedulerVisit, applyAging, h]

theorem schedulerVisit_fall (h : p.state = .runnable) (hw : agingInterval ≤ p.waitTicks) (hv : priorityValid p.priority)
    (hp : 0 < p.priority) : schedulerVisit p = { p with priority := p.priority - 1, waitTicks := 1 } := by
  have hag : applyAging p = { p with priority := p.priority - 1, waitTicks := 0 } := by
    unfold applyAging
    rw [if_pos ⟨h, hw, hv, hp⟩]
  unfold schedulerVisit
  rw [hag]
  simp [h]

theorem schedulerVisit_wait (h : p.state = .runnable)
    (hno : ¬ (agingInterval ≤ p.waitTicks ∧ priorityValid p.priority ∧ 0 < p.priority)) :
    schedulerVisit p = { p with waitTicks := (p.waitTicks + 1) % 2 ^ 32 } := by
  have hag : applyAging p = p := by
    unfold applyAging
    rw [if_neg]
    rintro ⟨-, hg⟩
    exact hno hg
  unfold schedulerVisit
  rw [hag]
  simp [h]

/-- A visit leaves the priority as it is, or lowers it by one after `AGING_INTERVAL` visits. -/
theorem schedulerVisit_priority (p : Proc) :
    (schedulerVisit p).priority = p.priority ∨
      (p.state = .runnable ∧ agingInterval ≤ p.waitTicks ∧ 0 < p.priority ∧
        (schedulerVisit p).priority = p.priority - 1 ∧ (schedulerVisit p).waitTicks = 1) := by
  by_cases h : p.state = .runnable
  · by_cases hg : agingInterval ≤ p.waitTicks ∧ priorityValid p.priority ∧ 0 < p.priority
    · rw [schedulerVisit_fall h hg.1 hg.2.1 hg.2.2]
      exact Or.inr ⟨h, hg.1, hg.2.2, rfl, rfl⟩
    · rw [schedulerVisit_wait h hg]
      exact Or.inl rfl
  · rw [schedulerVisit_of_not_runnable h]
    exact Or.inl rfl

theorem schedulerVisit_waitTicks (p : Proc) :
    (schedulerVisit p).waitTicks ≤ p.waitTicks + if p.state = .runnable then 1 else 0 := by
  by_cases h : p.state = .runnable
  · rw [if_pos h]
    by_cases hg : agingInterval ≤ p.waitTicks ∧ priorityValid p.priority ∧ 0 < p.priority
    · rw [schedulerVisit_fall h hg.1 hg.2.1 hg.2.2]
      dsimp only
      omega
    · rw [schedulerVisit_wait h hg]
      exact Nat.mod_le _ _
  · rw [schedulerVisit_of_not_runnable h, if_neg h]
    exact Nat.le_refl _

theorem FieldsOk.visit (h : FieldsOk p) : FieldsOk (schedulerVisit p) := by
  by_cases hr : p.state = .runnable
  · have hv := h.valid
    by_cases hg : agingInterval ≤ p.waitTicks ∧ priorityValid p.priority ∧ 0 < p.priority
    · rw [schedulerVisit_fall hr hg.1 hg.2.1 hg.2.2]
      refine ⟨?_, fun hs => absurd hr hs, fun _ _ => ?_⟩
      · simp only [priorityValid, priorityMin] at hv ⊢
        omega
      · simp [agingInterval]
    · rw [schedulerVisit_wait hr hg]
      refine ⟨hv, fun hs => absurd hr hs, fun _ hp => ?_⟩
      have hlt : p.waitTicks < agingInterval := by
        by_contra hge
        exact hg ⟨by omega, hv, hp⟩
      dsimp only
      exact Nat.le_trans (Nat.mod_le _ _) hlt
  · rwa [schedulerVisit_of_not_runnable hr]

/-! ## The invariant -/

theorem FieldsOk.procinit : FieldsOk procinit where
  valid := by decide
  waiting := fun _ => rfl
  bound := fun h => by cases h

/-- A slot that starts to wait, or does not wait, with its counter at zero. -/
theorem FieldsOk.of_zero (hv : priorityValid p.priority) (hw : p.waitTicks = 0) : FieldsOk p where
  valid := hv
  waiting := fun _ => hw
  bound := fun _ _ => by omega

theorem allocproc_fields (pid : Int) (tf pt : Nat) (p : Proc) :
    (allocproc pid tf pt p).1.priority = priorityDefault ∧ (allocproc pid tf pt p).1.waitTicks = 0 := by
  unfold allocproc
  dsimp only
  split
  · exact ⟨rfl, rfl⟩
  · split <;> exact ⟨rfl, rfl⟩

theorem priorityDefault_valid : priorityValid priorityDefault := by decide

/-- A write that leaves `priority` and `wait_ticks`, and takes no slot out of or into waiting with
ticks on its counter. -/
theorem FieldsOk.congr {q : Proc} (h : FieldsOk p) (hp : q.priority = p.priority) (hw : q.waitTicks = p.waitTicks)
    (hs : q.state = p.state ∨ p.state ≠ .runnable) : FieldsOk q := by
  rcases hs with hs | hs
  · exact ⟨hp ▸ h.valid, fun hn => hw ▸ h.waiting (hs ▸ hn), fun hr hpos => by
      rw [hw]
      exact h.bound (hs ▸ hr) (hp ▸ hpos)⟩
  · exact FieldsOk.of_zero (hp ▸ h.valid) (by rw [hw, h.waiting hs])

theorem woken_or_not_runnable (x : ProcState) :
    (if x = .sleeping then .runnable else x) = x ∨ x ≠ .runnable := by
  cases x <;> simp

theorem TableWrite.fieldsOk {c : Fin n} {i : Slot} {op : Op} (hw : TableWrite s c i op) (h : FieldsOk (s.proc i)) :
    FieldsOk (op.apply (s.proc i)) := by
  cases hw with
  | visit _ => exact h.visit
  | dispatch => exact FieldsOk.of_zero h.valid rfl
  | @userinit tf pt =>
    obtain ⟨hp, hw⟩ := allocproc_fields s.nextpid tf pt (s.proc 0)
    exact FieldsOk.of_zero (hp ▸ priorityDefault_valid) hw
  | leave _ hstate hop =>
    cases hop
    all_goals exact h.congr rfl rfl (Or.inr (by rw [hstate]; simp))
  | self _ _ hop =>
    cases hop
    all_goals exact h.congr rfl rfl (Or.inl rfl)
  | scan hop =>
    cases hop with
    | wakeup _ => exact h.congr rfl rfl (woken_or_not_runnable _)
    | kkill _ => exact h.congr rfl rfl (woken_or_not_runnable _)
    | @ksetpriority _ v _ _ => exact FieldsOk.of_zero v.2 rfl
  | @allocproc _ tf pt =>
    obtain ⟨hp, hw⟩ := allocproc_fields s.nextpid tf pt (s.proc i)
    exact FieldsOk.of_zero (hp ▸ priorityDefault_valid) hw
  | inherit =>
    refine FieldsOk.of_zero ?_ rfl
    simp only [Op.apply]
    split
    · assumption
    · exact priorityDefault_valid
  | forkfail => exact FieldsOk.of_zero priorityDefault_valid rfl
  | setParent => exact h.congr rfl rfl (Or.inl rfl)
  | publish hstate => exact h.congr rfl rfl (Or.inr (by rw [hstate]; simp))
  | reparent => exact h.congr rfl rfl (Or.inl rfl)
  | reap => exact FieldsOk.of_zero priorityDefault_valid rfl

theorem fieldsOk_of_reachable (h : Reachable s) (p : Slot) : FieldsOk (s.proc p) :=
  table_invariant FieldsOk.procinit (fun _ _ i _ _ hall hw => hw.fieldsOk (hall i)) h p

/-! ## Aging along a run -/

/-- The step lowers the priority of `w` at a scheduler's visit. -/
def Aged (w : Slot) (s : State n) (l : Label n) (t : State n) : Prop :=
  writeOf s l = some (w, .visit) ∧ (t.proc w).priority = (s.proc w).priority - 1

/-- The steps that put `wait_ticks` of `w` back: a fall of its priority, a dispatch, `ksetpriority()`. -/
def Restarts (w : Slot) (s : State n) (l : Label n) (t : State n) : Prop :=
  Aged w s l t ∨ writeOf s l = some (w, .dispatch) ∨ ∃ v, writeOf s l = some (w, .ksetpriority v)

/-- The visits of the schedulers to slot `w` in a run, made while it is RUNNABLE. -/
def visits (w : Slot) : State n → List (Label n) → Nat :=
  Automaton.tally step fun s l _ =>
    if writeOf s l = some (w, .visit) ∧ (s.proc w).state = .runnable then 1 else 0

theorem TableWrite.waitTicks_le {c : Fin n} {i : Slot} {op : Op} (hw : TableWrite s c i op) (hop : op ≠ .visit) :
    (op.apply (s.proc i)).waitTicks ≤ (s.proc i).waitTicks := by
  cases hw with
  | visit _ => exact absurd rfl hop
  | @userinit tf pt => exact (allocproc_fields s.nextpid tf pt (s.proc 0)).2 ▸ Nat.zero_le _
  | leave _ _ hop => cases hop <;> exact Nat.le_refl _
  | self _ _ hop => cases hop <;> exact Nat.le_refl _
  | scan hop => cases hop <;> first | exact Nat.le_refl _ | exact Nat.zero_le _
  | @allocproc _ tf pt => exact (allocproc_fields s.nextpid tf pt (s.proc i)).2 ▸ Nat.zero_le _
  | dispatch => exact Nat.zero_le _
  | inherit => exact Nat.zero_le _
  | forkfail => exact Nat.zero_le _
  | setParent => exact Nat.le_refl _
  | publish => exact Nat.le_refl _
  | reparent => exact Nat.le_refl _
  | reap => exact Nat.zero_le _

theorem waitTicks_step (hs : Reachable s) (h : step s l = some t) (w : Slot) :
    (t.proc w).waitTicks ≤ (s.proc w).waitTicks +
      if writeOf s l = some (w, .visit) ∧ (s.proc w).state = .runnable then 1 else 0 := by
  obtain ⟨c, ch⟩ := l
  rcases (inv_of_reachable hs).slot_step h w with ⟨-, hp⟩ | ⟨op, hwr, htw, hp⟩
  · rw [hp]
    exact Nat.le_add_right _ _
  · rw [hp]
    by_cases hop : op = .visit
    · subst hop
      have := schedulerVisit_waitTicks (s.proc w)
      simpa [hwr, Op.apply] using this
    · exact Nat.le_trans (htw.waitTicks_le hop) (Nat.le_add_right _ _)

/-- The counter at the end of a run is at most the counter at its start and the visits in between. -/
theorem waitTicks_le_visits (hs : Reachable s) (w : Slot) (h : Automaton.run step s ls = some t) :
    (t.proc w).waitTicks ≤ (s.proc w).waitTicks + visits w s ls := by
  induction ls generalizing s with
  | nil =>
    cases h
    exact Nat.le_add_right _ _
  | cons l ls ih =>
    obtain ⟨u, hu, h⟩ := Automaton.run_cons_eq_some.mp h
    have h1 := waitTicks_step hs hu w
    have h2 := ih (hs.next hu) h
    unfold visits at h2 ⊢
    rw [Automaton.tally_cons hu]
    omega

theorem waitTicks_of_restarts (hs : Reachable s) (h : step s l = some t) (hr : Restarts w s l t) :
    (t.proc w).waitTicks ≤ 1 := by
  obtain ⟨c, ch⟩ := l
  rcases (inv_of_reachable hs).slot_step h w with ⟨hno, -⟩ | ⟨op, hwr, -, hp⟩
  · rcases hr with hr | hr | ⟨v, hr⟩
    · exact absurd hr.1 (hno _)
    · exact absurd hr (hno _)
    · exact absurd hr (hno _)
  · rcases hr with ⟨hr, hfall⟩ | hr | ⟨v, hr⟩
    · rw [hwr] at hr
      cases hr
      rcases schedulerVisit_priority (s.proc w) with heq | ⟨-, -, -, -, hw⟩
      · rw [hp] at hfall
        change (schedulerVisit (s.proc w)).priority = _ at hfall
        omega
      · rw [hp]
        exact hw.le
    · rw [hwr] at hr
      cases hr
      rw [hp]
      exact Nat.zero_le _
    · rw [hwr] at hr
      cases hr
      rw [hp]
      exact Nat.zero_le _

/-- **A fall comes at least `AGING_INTERVAL` visits after the counter was put back.** -/
theorem visits_before_fall {s' u v : State n} {l' : Label n} (hs : Reachable s) (h : step s l = some s')
    (hr : Restarts w s l s') (hrun : Automaton.run step s' ls = some u) (hfall : step u l' = some v)
    (ha : Aged w u l' v) : agingInterval ≤ visits w s' (ls ++ [l']) := by
  have hs' : Reachable s' := hs.next h
  have hu : Reachable u := hs'.trans hrun
  have h1 := waitTicks_of_restarts hs h hr
  have h2 := waitTicks_le_visits hs' w hrun
  -- the counter had reached the interval at the visit that lowered the priority
  obtain ⟨hstate, h3⟩ : (u.proc w).state = .runnable ∧ agingInterval ≤ (u.proc w).waitTicks := by
    obtain ⟨c, ch⟩ := l'
    obtain ⟨hwr, hp⟩ := ha
    rcases (inv_of_reachable hu).slot_step hfall w with ⟨hno, -⟩ | ⟨op, hwr', -, hv⟩
    · exact absurd hwr (hno _)
    · rw [hwr] at hwr'
      cases hwr'
      rcases schedulerVisit_priority (u.proc w) with heq | ⟨hst, hw, -⟩
      · rw [hv] at hp
        change (schedulerVisit (u.proc w)).priority = _ at hp
        omega
      · exact ⟨hst, hw⟩
  have h4 : visits w u [l'] = 1 := by
    unfold visits
    rw [Automaton.tally_cons hfall, if_pos ⟨ha.1, hstate⟩]
    rfl
  have h5 : visits w s' (ls ++ [l']) = visits w s' ls + visits w u [l'] := Automaton.tally_append hrun
  omega

/-- The writes that give a process its priority from outside: `ksetpriority()`, and `kfork()` when it
makes the child. -/
def Op.setsPriority : Op → Bool
  | .ksetpriority _ | .inherit _ _ => true
  | _ => false

def SetsPriority (w : Slot) (s : State n) (l : Label n) : Prop :=
  ∃ op, writeOf s l = some (w, op) ∧ op.setsPriority = true

instance (w : Slot) (s : State n) (l : Label n) : Decidable (SetsPriority w s l) :=
  decidable_of_iff ((writeOf s l).any fun x => x.1 = w ∧ x.2.setsPriority = true) (by
    simp [SetsPriority, Option.any_eq_true])

theorem priority_step (hs : Reachable s) (h : step s l = some t) (hlive : (s.proc w).state ≠ .unused)
    (hlive' : (t.proc w).state ≠ .unused) (hno : ¬ SetsPriority w s l) :
    (t.proc w).priority = (s.proc w).priority ∨ Aged w s l t := by
  obtain ⟨c, ch⟩ := l
  rcases (inv_of_reachable hs).slot_step h w with ⟨-, hp⟩ | ⟨op, hwr, htw, hp⟩
  · rw [hp]
    exact Or.inl rfl
  · unfold Aged
    rw [hp] at hlive' ⊢
    cases htw with
    | visit _ =>
      refine (schedulerVisit_priority (s.proc w)).imp id fun hf => ⟨hwr, hf.2.2.2.1⟩
    | dispatch => exact Or.inl rfl
    | userinit _ hstate => exact absurd hstate hlive
    | leave _ _ hop => cases hop <;> exact Or.inl rfl
    | self _ _ hop => cases hop <;> exact Or.inl rfl
    | scan hop =>
      cases hop with
      | wakeup _ => exact Or.inl rfl
      | kkill _ => exact Or.inl rfl
      | ksetpriority _ _ => exact absurd ⟨_, hwr, rfl⟩ hno
    | allocproc hstate => exact absurd hstate hlive
    | inherit => exact absurd ⟨_, hwr, rfl⟩ hno
    | forkfail => exact absurd rfl hlive'
    | setParent => exact Or.inl rfl
    | publish => exact Or.inl rfl
    | reparent => exact Or.inl rfl
    | reap => exact absurd rfl hlive'

/-- The priority of a live process along a run in which nobody sets it. -/
theorem priority_run (hs : Reachable s) (h : Automaton.run step s ls = some t)
    (hlive : Automaton.Always step (fun s => (s.proc w).state ≠ .unused) s ls)
    (hno : Automaton.Each step (fun s l _ => ¬ SetsPriority w s l) s ls) :
    (t.proc w).priority ≤ (s.proc w).priority ∧
      Automaton.Each step (fun s l t => (t.proc w).priority = (s.proc w).priority ∨ Aged w s l t) s ls := by
  induction ls generalizing s with
  | nil =>
    cases h
    exact ⟨le_refl _, trivial⟩
  | cons l ls ih =>
    obtain ⟨u, hu, h⟩ := Automaton.run_cons_eq_some.mp h
    have hstep := priority_step hs hu hlive.1 (hlive.2 u hu).head (hno u hu).1
    obtain ⟨hle, heach⟩ := ih (hs.next hu) h (hlive.2 u hu) (hno u hu).2
    refine ⟨?_, fun v hv => ?_⟩
    · rcases hstep with heq | ⟨-, hfall⟩
      · omega
      · omega
    · rw [hu] at hv
      cases hv
      exact ⟨hstep, heach⟩

/-- A priority that is the same at both ends of such a run is the same all along it. -/
theorem priority_const (hs : Reachable s) (h : Automaton.run step s ls = some t)
    (hlive : Automaton.Always step (fun s => (s.proc w).state ≠ .unused) s ls)
    (hno : Automaton.Each step (fun s l _ => ¬ SetsPriority w s l) s ls)
    (heq : (t.proc w).priority = (s.proc w).priority) :
    Automaton.Always step (fun u => (u.proc w).priority = (s.proc w).priority) s ls := by
  refine Automaton.always_of_prefix_states fun ks ms u hls hu => ?_
  subst hls
  obtain ⟨v, hv, hrest⟩ := Automaton.run_append_eq_some.mp h
  rw [hu] at hv
  cases hv
  obtain ⟨hlive1, hlive2⟩ := (Automaton.always_append hu).mp hlive
  obtain ⟨hno1, hno2⟩ := Automaton.Each.append.mp hno
  have h1 := (priority_run hs hu hlive1 hno1).1
  have h2 := (priority_run (Automaton.Reachable.trans hs hu) hrest hlive2 (hno2 u hu)).1
  omega

/-- **The scheduling fields.** In every reachable state they are in range and fit together; a live
process's priority changes only by falls of one at a scheduler's visit while nobody sets it; and each
fall is at least the fiftieth visit, made while the process waits, since `wait_ticks` was last put
back. -/
theorem scheduling_fields (hs : Reachable s) (w : Slot) :
    ((0 ≤ (s.proc w).priority ∧ (s.proc w).priority ≤ 31) ∧
      ((s.proc w).state ≠ .runnable → (s.proc w).waitTicks = 0) ∧
      ((s.proc w).state = .runnable → 0 < (s.proc w).priority → (s.proc w).waitTicks ≤ 50)) ∧
    (∀ ls t, Automaton.run step s ls = some t →
      Automaton.Always step (fun s => (s.proc w).state ≠ .unused) s ls →
      Automaton.Each step (fun s l _ => ¬ SetsPriority w s l) s ls →
      (t.proc w).priority ≤ (s.proc w).priority ∧
      Automaton.Each step (fun s l t => (t.proc w).priority = (s.proc w).priority ∨ Aged w s l t) s ls) ∧
    (∀ l s' ls u l' v, step s l = some s' → Restarts w s l s' →
      Automaton.run step s' ls = some u → step u l' = some v → Aged w u l' v →
      50 ≤ visits w s' (ls ++ [l'])) := by
  have hf := fieldsOk_of_reachable hs w
  refine ⟨⟨hf.valid, hf.waiting, hf.bound⟩, ?_, ?_⟩
  · intro ls t h hlive hno
    exact priority_run hs h hlive hno
  · intro l s' ls u l' v h hr hrun hfall ha
    exact visits_before_fall hs h hr hrun hfall ha

/-- The machine of one CPU after `userinit()`, with the CPU at the head of its loop. -/
def booted : State 1 := Automaton.runD step (State.init 1) [(0, .alloc 1 1), (0, .run)]

theorem reachable_booted : Reachable booted := ⟨_, Automaton.run_eq_runD (by decide)⟩

/-- CPU `c` enters its loop and visits slot 0, where the first process waits. -/
def looking {n : Nat} (c : Fin n) : List (Label n) := List.replicate 4 (c, .run)

def firstVisits : List (Label 101) :=
  (0, .alloc 1 1) :: (((List.finRange 101).take 51).flatMap looking).dropLast

def lastVisits : List (Label 101) := (((List.finRange 101).drop 51).flatMap looking).dropLast

/-- Of 101 CPUs 50 have visited the process, and the next is about to do so. -/
def crowd : State 101 := Automaton.runD step (State.init 101) firstVisits

def aged : State 101 := Automaton.runD step crowd [(50, .run)]

/-- The last CPU is about to visit the process. -/
def waiting : State 101 := Automaton.runD step aged lastVisits

def agedTwice : State 101 := Automaton.runD step waiting [(100, .run)]

/-- What these runs come to. -/
theorem crowdFacts : ((Automaton.run step (State.init 101) firstVisits).isSome = true ∧
      (step crowd (50, .run)).isSome = true ∧ (Automaton.run step aged lastVisits).isSome = true ∧
      (step waiting (100, .run)).isSome = true) ∧
    (writeOf crowd (50, .run) = some (0, .visit) ∧ writeOf waiting (100, .run) = some (0, .visit)) ∧
    ((aged.proc 0).priority = (crowd.proc 0).priority - 1 ∧
      (agedTwice.proc 0).priority = (waiting.proc 0).priority - 1) ∧
    (aged.proc 0).priority = 9 ∧ (agedTwice.proc 0).priority = 8 := by
  decide +kernel

/-- The process ages at the 51st visit, and again at the last. -/
theorem scheduling_fields_crowd :
    Automaton.run step aged (lastVisits ++ [(100, .run)]) = some agedTwice ∧ (aged.proc 0).priority = 9 ∧
      (agedTwice.proc 0).priority = 8 ∧ 50 ≤ visits 0 aged (lastVisits ++ [(100, .run)]) := by
  obtain ⟨⟨hcrowd, hfirst, hrun, hlast⟩, ⟨hw, hw'⟩, ⟨hfall, hfall'⟩, h9, h8⟩ := crowdFacts
  have hreach : Reachable crowd := ⟨_, Automaton.run_eq_runD hcrowd⟩
  have hrun : Automaton.run step aged lastVisits = some waiting := Automaton.run_eq_runD hrun
  have hlast : step waiting (100, .run) = some agedTwice := Automaton.step_eq_runD hlast
  refine ⟨Automaton.run_trans hrun (Automaton.run_single hlast), h9, h8, ?_⟩
  exact (scheduling_fields hreach 0).2.2 _ _ _ _ _ _ (Automaton.step_eq_runD hfirst)
    (Or.inl ⟨hw, hfall⟩) hrun hlast ⟨hw', hfall'⟩

end Xv6
