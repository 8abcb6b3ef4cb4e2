import Xv6.Proc.Handover

/-!
# The hand-over holds in every reachable state

The steps that go through `swtch()` keep `Inv`, and with them all steps do.

* `Inv.step_dispatch` : a scheduler enters a thread, with `p->lock` held;
* `Inv.step_swtch`, `Inv.step_back` : a thread leaves its CPU, and the scheduler releases the lock;
* `Inv.step`, `inv_of_reachable` : `Inv` holds in every reachable state.
-/

namespace Xv6
open Function

variable {n : Nat} {s : State n}

/-! ## Steps through `swtch()` -/

section Swtch
variable {s : State n} {c : Fin n} {p i : Slot} {e : Effect} {k : Ctl}

/-- A slot that is not the one CPU `c` enters or leaves. -/
theorem SlotInv.of_elsewhere {t : State n} {q : Slot} (h : SlotInv s q)
    (hstate : (t.proc q).state = (s.proc q).state) (hst : t.stack q = s.stack q)
    (hcpu : ∀ d, d ≠ c → t.cpu d = s.cpu d) (hc : (s.cpu c).loc.proc ≠ some q)
    (hc' : (t.cpu c).loc.proc ≠ some q) : SlotInv t q := by
  have hat : ∀ l : SchedLoc, l.proc = some q → ∀ d, (t.cpu d).loc = l ↔ (s.cpu d).loc = l := by
    intro l hl d
    by_cases hd : d = c
    · subst hd
      constructor
      · intro h
        exact absurd (h ▸ hl) hc'
      · intro h
        exact absurd (h ▸ hl) hc
    · rw [hcpu d hd]
  exact h.congr hstate hst (hat (.switched q) rfl) (hat (.back q) rfl)

theorem Inv.step_dispatch {offset : Slot} {best : Int} (hi : Inv s)
    (hloc : (s.cpu c).loc = .selectIn offset best) (hidx : i = (s.cpu c).nextIndex + offset)
    (hstate : (s.proc i).state = .runnable) :
    Inv ((s.apply c { write := some (i, .dispatch) }).move c (.dispatch i)) := by
  generalize he : ({ write := some (i, .dispatch) } : Effect) = e
  have hheld : s.held c = [.proc i] := by simp [State.held, hloc, hidx]
  have hcpu : ((s.apply c e).move c (.dispatch i)).cpu c =
      { s.cpu c with proc := some i, loc := .switched i } := by
    subst he
    simp [State.move]
  have hstack : ((s.apply c e).move c (.dispatch i)).stack = s.stack := by
    subst he
    rfl
  have hproc : ((s.apply c e).move c (.dispatch i)).proc =
      update s.proc i (schedulerDispatch (s.proc i)) := by
    subst he
    rfl
  -- the scheduler holds the lock of a process that is not running, so no CPU is in its thread
  have hidle : ∀ d, (s.cpu d).loc.proc ≠ some i :=
    hi.idle_of_held (c := c) (by rw [hheld]; exact List.mem_singleton_self _)
      (by simp [hloc, SchedLoc.proc]) (by rw [hstate]; simp)
  have hsaved : Saved i (s.stack i) := ((hi.slot i).idle hidle).2 (Or.inr (Or.inl hstate))
  refine hi.step_keep ?_ (by simp [← he]) (fun _ _ p _ => congrFun hstack p) ?_ ?_ ?_ ?_ ?_ ?_ ?_ ?_
    (fun p => Or.inl (by rw [hstack]))
  · rw [hheld, held_switched (p := i) (by rw [hcpu]), hstack, hsaved.1, ← he]
    exact List.Perm.refl _
  · intro p
    rw [hstack]
    exact hi.wants p
  · rw [hcpu]
    exact hi.irqWants c
  · rw [hcpu]
    exact hi.irqSched c
  · rw [hcpu]
    exact fun _ => hi.irqTop c (by rw [hloc]; simp)
  · rw [hcpu]
    rfl
  · intro d _ p hp
    rw [hcpu] at hp
    exact Option.some.inj hp ▸ hidle d
  · intro p
    by_cases hp : p = i
    · subst hp
      refine SlotInv.of_switched (c := c) (by rw [hcpu]) (fun d hd => ?_) (Or.inl ⟨?_, ?_⟩)
      · by_contra hdc
        rw [step_cpu_ne hdc] at hd
        exact hidle d hd
      · rw [hstack]
        exact hsaved.2
      · rw [hproc, update_self]
        rfl
    · refine (hi.slot p).of_elsewhere (c := c) ?_ (congrFun hstack p) (fun d hd => step_cpu_ne hd) ?_ ?_
      · rw [hproc, update_of_ne hp]
      · rw [hloc]
        simp [SchedLoc.proc]
      · rw [hcpu]
        exact fun h => hp (Option.some.inj h).symm
  · intro p hu
    rw [hproc, update_of_ne, hu]
    rintro rfl
    rw [hstate] at hu
    cases hu

/-- The thread calls `swtch()` and the scheduler returns from it. -/
theorem Inv.step_swtch {st : List Frame} (hi : Inv s) (hloc : (s.cpu c).loc = .switched p)
    (hst : s.stack p = .sched :: st) (hnoff : (s.cpu c).noff = 1) :
    Inv ((s.apply c {}).move c (.swtch p st)) := by
  have hcpu : ((s.apply c {}).move c (.swtch p st)).cpu c = { s.cpu c with loc := .back p } := by
    simp [State.move]
  have hself : ((s.apply c {}).move c (.swtch p st)).stack p = st := by
    simp [State.move, State.setCpu]
  have hother : ∀ q, q ≠ p → ((s.apply c {}).move c (.swtch p st)).stack q = s.stack q := by
    intro q hq
    exact setStack_stack_ne _ hq _
  obtain ⟨hrest, hmem, hns⟩ : Resting (s.proc p).state ∧ .proc p ∈ locksOf (some p) st ∧
      .sched ∉ st := by
    rcases (hi.slot p).switched c hloc with ⟨h, -⟩ | ⟨⟨r, hr, hnr⟩, hrest, hl⟩
    · rw [hst] at h
      simp at h
    · rw [hst] at hr hl
      rcases hr with hr | hr
      · cases hr
        exact ⟨hrest, hl, hnr⟩
      · cases hr
  -- `sched()` has checked that this is the only lock
  have hlocks : locksOf (some p) st = [.proc p] := by
    have hlen := hi.noff c
    rw [hnoff, held_switched hloc, hst] at hlen
    obtain ⟨l, hl⟩ := List.length_eq_one_iff.mp hlen.symm
    change locksOf (some p) st = [l] at hl
    rw [hl] at hmem ⊢
    rw [List.mem_singleton.mp hmem]
  have hone : ∀ d, (s.cpu d).loc.proc = some p → d = c := fun d hd =>
    hi.one d c p hd (by rw [hloc]; rfl)
  refine hi.step_keep ?_ (by simp) ?_ ?_ ?_ ?_ ?_ ?_ ?_ ?_ (fun _ h => h) ?_
  · rw [held_switched hloc, held_back (p := p) (by rw [hcpu]), hst, ← hlocks]
    exact List.Perm.refl _
  · intro d hd q hq
    refine hother q ?_
    rintro rfl
    exact hd (hone d (by rw [hq]; rfl))
  · intro q
    by_cases hq : q = p
    · have hw := hi.wants p
      rw [hst] at hw
      rw [hq, hself]
      exact hw
    · rw [hother q hq]
      exact hi.wants q
  · rw [hcpu]
    exact hi.irqWants c
  · rw [hcpu]
    exact hi.irqSched c
  · rw [hcpu]
    exact fun _ => hi.irqTop c (by rw [hloc]; simp)
  · rw [hcpu]
    have := hi.cpuProc c
    rwa [hloc] at this
  · intro d hd q hq hdq
    rw [hcpu] at hq
    exact hd (hone d (by rw [hdq, ← hq]; rfl))
  · intro q
    by_cases hq : q = p
    · subst hq
      refine ⟨fun d hd => ?_, fun d _ => ⟨hrest, by rw [hself]; exact ⟨hlocks, hns⟩⟩, fun h => ?_⟩
      · exfalso
        by_cases hdc : d = c
        · rw [hdc, hcpu] at hd
          cases hd
        · rw [step_cpu_ne hdc] at hd
          exact hdc (hone d (by rw [hd]; rfl))
      · exact absurd (by rw [hcpu]; rfl) (h c)
    · refine (hi.slot q).of_elsewhere (c := c) rfl (hother q hq) (fun d hd => step_cpu_ne hd) ?_ ?_
      · rw [hloc]
        exact fun h => hq (Option.some.inj h).symm
      · rw [hcpu]
        exact fun h => hq (Option.some.inj h).symm
  · intro q
    by_cases hq : q = p
    · rw [hq, hself, hst]
      exact Or.inl (by simp [Frame.child])
    · exact Or.inl (by rw [hother q hq])

/-- The scheduler lets go of the process. -/
theorem Inv.step_back (hi : Inv s) (hloc : (s.cpu c).loc = .back i) :
    Inv ((s.apply c { release := [.proc i] }).move c (.back i)) := by
  generalize he : ({ release := [.proc i] } : Effect) = e
  have hproc : ((s.apply c e).move c (.back i)).proc = s.proc := by
    subst he
    rfl
  have hstack : ((s.apply c e).move c (.back i)).stack = s.stack := by
    subst he
    rfl
  have hirq : (((s.apply c e).move c (.back i)).cpu c).irq = [] := by
    rw [← hi.irqTop c (by rw [hloc]; simp)]
    simp [State.move]
  have htop : (((s.apply c e).move c (.back i)).cpu c).loc = .top := by simp [State.move]
  obtain ⟨hrest, hsaved⟩ := (hi.slot i).back c hloc
  refine hi.step_keep ?_ (by simp [← he]) (fun _ _ p _ => congrFun hstack p) ?_ ?_ ?_ (fun _ => hirq) ?_ ?_
    ?_ (fun p h => by rwa [hproc]) (fun p => Or.inl (by rw [hstack]))
  · rw [held_back hloc, ← he]
    simp only [State.held]
    rw [he, htop]
    simp [hirq, locksOf]
  · intro p
    rw [hstack]
    exact hi.wants p
  · rw [hirq]
    trivial
  · rw [hirq]
    exact List.not_mem_nil
  · rw [htop]
    simp [State.move, SchedLoc.proc]
  · intro d _ p h
    rw [htop] at h
    cases h
  · intro p
    by_cases hp : p = i
    · subst hp
      refine SlotInv.of_idle (fun d hd => ?_) ?_ (fun _ => by rwa [hstack])
      · by_cases hdc : d = c
        · rw [hdc, htop] at hd
          cases hd
        · rw [step_cpu_ne hdc] at hd
          exact hdc (hi.one d c p hd (by rw [hloc]; rfl))
      · rw [hproc]
        rcases hrest with h | h | h <;> rw [h] <;> simp
    · refine (hi.slot p).of_elsewhere (c := c) (by rw [hproc]) (congrFun hstack p)
        (fun d hd => step_cpu_ne hd) ?_ ?_
      · rw [hloc]
        exact fun h => hp (Option.some.inj h).symm
      · rw [htop]
        simp [SchedLoc.proc]

/-- `userinit()`. -/
theorem Inv.step_boot {tf pt : Nat} (hi : Inv s) (hloc : (s.cpu c).loc = .boot)
    (hfree : (s.proc 0).state = .unused) :
    Inv ((s.apply c
      { write := some (0, .userinit s.nextpid tf pt), allocpid := true, spawn := some 0 }).move c
        (.boot 0)) := by
  generalize he :
    ({ write := some (0, .userinit s.nextpid tf pt), allocpid := true, spawn := some 0 } : Effect) = e
  have hcpu : ((s.apply c e).move c (.boot 0)).cpu c = s.cpu c := by
    subst he
    simp [State.move]
  have hstack : ((s.apply c e).move c (.boot 0)).stack = update s.stack 0 [.unlockSelf] := by
    subst he
    rfl
  have hproc : ((s.apply c e).move c (.boot 0)).proc =
      update s.proc 0 (Op.apply (.userinit s.nextpid tf pt) (s.proc 0)) := by
    subst he
    rfl
  have hidle : ∀ d, (s.cpu d).loc.proc ≠ some 0 := hi.idle_of_state (Or.inl hfree)
  have hheld : ((s.apply c e).move c (.boot 0)).held c = s.held c := by
    refine held_congr hcpu fun p hp => ?_
    rw [hloc] at hp
    cases hp
  refine hi.step_keep ?_ (by simp [← he]) ?_ ?_ ?_ ?_ ?_ ?_ ?_ ?_ ?_ ?_
  · rw [hheld, ← he]
    exact List.Perm.refl _
  · intro d _ p hp
    rw [hstack, update_of_ne]
    rintro rfl
    exact hidle d (by rw [hp]; rfl)
  · intro p
    rw [hstack]
    by_cases hp : p = 0
    · rw [hp, update_self]
      trivial
    · rw [update_of_ne hp]
      exact hi.wants p
  · rw [hcpu]
    exact hi.irqWants c
  · rw [hcpu]
    exact hi.irqSched c
  · rw [hcpu]
    exact hi.irqTop c
  · rw [hcpu]
    exact hi.cpuProc c
  · intro d hd p hp hdp
    rw [hcpu] at hp
    exact hd (hi.one d c p hdp hp)
  · intro p
    by_cases hp : p = 0
    · subst hp
      refine SlotInv.of_idle (fun d => ?_) ?_ fun _ => ?_
      · by_cases hd : d = c
        · rw [hd, hcpu]
          exact hidle c
        · rw [step_cpu_ne hd]
          exact hidle d
      · rw [hproc, update_self]
        simp [Op.apply]
      · rw [hstack, update_self]
        simp [Saved, locksOf, Frame.locks, self]
    · refine (hi.slot p).of_elsewhere (c := c) ?_ ?_ (fun d hd => step_cpu_ne hd) ?_ ?_
      · rw [hproc, update_of_ne hp]
      · rw [hstack, update_of_ne hp]
      · rw [hloc]
        simp [SchedLoc.proc]
      · rw [hcpu, hloc]
        simp [SchedLoc.proc]
  · intro p hu
    rw [hproc, update_of_ne, hu]
    rintro rfl
    rw [hfree] at hu
    cases hu
  · intro p
    rw [hstack]
    by_cases hp : p = 0
    · rw [hp, update_self]
      exact Or.inr rfl
    · rw [update_of_ne hp]
      exact Or.inl rfl

end Swtch

/-! ## The invariant of the whole machine -/

/-- A visit writes `priority` and `wait_ticks` only. -/
theorem schedulerVisit_eq (p : Proc) : schedulerVisit p =
    { p with priority := (schedulerVisit p).priority, waitTicks := (schedulerVisit p).waitTicks } := by
  unfold schedulerVisit applyAging
  dsimp only
  split <;> split <;> rfl

theorem schedulerVisit_state (p : Proc) : (schedulerVisit p).state = p.state := by
  rw [schedulerVisit_eq]

section Scheduler
variable {s : State n} {c : Fin n} {l : SchedLoc} {e : Effect}

/-- Between two visits a scheduler holds no lock. -/
def SchedLoc.Between : SchedLoc → Prop
  | .boot | .top | .scan _ _ _ | .select _ _ | .wfi => True
  | _ => False

theorem SchedLoc.Between.proc (h : l.Between) : l.proc = none := by
  cases l <;> first | rfl | exact h.elim

theorem scanAfter_between (i : Slot) (best : Int) (found : Bool) :
    (scanAfter i best found).Between := by
  unfold scanAfter
  split
  · trivial
  · split <;> trivial

theorem selectAfter_between (offset : Slot) (best : Int) : (selectAfter offset best).Between := by
  unfold selectAfter
  split <;> trivial

theorem held_between {t : State n} (h : (t.cpu c).loc.Between) (hirq : (t.cpu c).irq = []) :
    t.held c = [] := by
  unfold State.held
  rw [hirq]
  split
  all_goals first | rfl | simp_all [SchedLoc.Between]

/-- A scheduler moves on and changes no slot's state. -/
theorem Inv.step_loc (hi : Inv s) (hstate : ∀ p, (((s.apply c e).move c (.loc l)).proc p).state = (s.proc p).state)
    (hspawn : e.spawn = none) (hloc : (s.cpu c).loc.proc = none) (hl : l.proc = none) (hirq : (s.cpu c).irq = [])
    (hperm : (e.acquire.toList ++ s.held c).Perm (e.release ++ ((s.apply c e).move c (.loc l)).held c))
    (hfree : ∀ l, e.acquire = some l → s.lock l = none) : Inv ((s.apply c e).move c (.loc l)) := by
  have hcpu : (((s.apply c e).move c (.loc l)).cpu c).irq = [] := by simp [State.move, hirq]
  have hstack : ((s.apply c e).move c (.loc l)).stack = s.stack := apply_stack_none s c e hspawn
  refine hi.step_scheduler hstack (fun p => Or.inl (hstate p)) hloc (by simp [State.move, hl]) ?_ hperm
    hfree (by rw [hcpu]; trivial) (by rw [hcpu]; exact List.not_mem_nil) (fun _ => hcpu)
  simp [State.move, hi.cpuProc c, hloc]

/-- The scheduler leaves `proc[i]` and goes on to the next slot. -/
theorem Inv.step_leave {i : Slot} (hi : Inv s)
    (hstate : ∀ p, (((s.apply c e).move c (.loc l)).proc p).state = (s.proc p).state) (hspawn : e.spawn = none)
    (hacq : e.acquire = none) (hrel : e.release = [.proc i]) (hloc : (s.cpu c).loc.proc = none)
    (hheld : s.held c = [.proc i]) (hl : l.Between) (hirq : (s.cpu c).irq = []) :
    Inv ((s.apply c e).move c (.loc l)) := by
  refine hi.step_loc hstate hspawn hloc hl.proc hirq ?_ (by simp [hacq])
  rw [hheld, held_between (by simpa [State.move] using hl) (by simp [State.move, hirq]), hrel, hacq]
  exact List.Perm.refl _

theorem interrupt_frames {me : Option Slot} {st st' : List Frame} {ch : Choice}
    (h : interrupt me st ch = some st') :
    (.sched ∈ st' ↔ .sched ∈ st) ∧ children st' = children st := by
  cases ch
  all_goals simp only [interrupt] at h
  case timer =>
    obtain ⟨p, rfl, rfl⟩ := Option.map_eq_some_iff.mp h
    simp [Frame.child]
  all_goals cases h
  all_goals simp [Frame.child]

/-- A step of an interrupt handler on the scheduler's stack. -/
theorem Inv.step_irq {st : List Frame} (hi : Inv s) (hloc : (s.cpu c).loc = .top)
    (hlock : LockStep s none (s.cpu c).irq e st) (hw : Wrote s none (s.cpu c).irq st e.write e.spawn) :
    Inv ((s.apply c e).move c (.irq st)) := by
  have htop : (((s.apply c e).move c (.irq st)).cpu c).loc = .top := by simp [State.move, hloc]
  have hirq : (((s.apply c e).move c (.irq st)).cpu c).irq = st := by simp [State.move]
  have hheld : s.held c = locksOf none (s.cpu c).irq := by simp [State.held, hloc]
  have hheld' : ((s.apply c e).move c (.irq st)).held c = locksOf none st := by
    simp only [State.held, htop, hirq]
  obtain ⟨hspawn, hsched, hstate⟩ : e.spawn = none ∧ .sched ∉ st ∧
      ∀ p, SameOrWoken s ((s.apply c e).move c (.irq st)) p := by
    generalize hwr : e.write = w at hw
    generalize hsp : e.spawn = sp at hw
    cases hw with
    | nothing hs _ =>
      refine ⟨rfl, hs, fun p => Or.inl ?_⟩
      rw [move_proc, apply_proc_none _ _ _ hwr]
    | @scan j i op hop hl hs _ =>
      refine ⟨rfl, hs, fun p => ?_⟩
      unfold SameOrWoken
      rw [move_proc, apply_proc_some _ _ _ hwr]
      by_cases hp : p = i
      · subst hp
        rw [update_self]
        refine hop.state.imp_right fun h => ⟨h.1, h.2, ?_⟩
        refine hi.idle_of_held (c := c) ?_ (by simp [hloc, SchedLoc.proc]) (by rw [h.1]; simp)
        rw [hheld]
        exact hl
      · rw [update_of_ne hp]
        exact Or.inl rfl
    | leave hme => cases hme
    | self hme => cases hme
    | alloc hme => cases hme
    | allocFail hme => cases hme
    | inherit hme => cases hme
    | forkFail hme => cases hme
    | setParent hme => cases hme
    | publish hme => cases hme
    | reparent hme => cases hme
    | reap hme => cases hme
  have hstack : ((s.apply c e).move c (.irq st)).stack = s.stack := apply_stack_none s c e hspawn
  refine hi.step_scheduler hstack hstate (by rw [hloc]; rfl) (by rw [htop]; rfl) ?_ ?_ hlock.free
    (by rw [hirq]; exact hlock.wants) (by rwa [hirq]) (fun h => absurd htop h)
  · simp [State.move, hi.cpuProc c, hloc, SchedLoc.proc]
  · rw [hheld, hheld']
    exact hlock.perm

end Scheduler

theorem ExecCase.head_ne_panic {c : Fin n} {me : Option Slot} {ch : Choice} {e : Effect} {r st' : List Frame} :
    ¬ ExecCase s c me ch (.panic :: r) e st' := by
  intro h
  cases h with
  | own hme h => simp [Xv6.own] at h

/-- A thread that takes a step other than those of `sched()` is not about to leave. -/
theorem Inv.not_sched {c : Fin n} {p : Slot} (hi : Inv s) (hloc : (s.cpu c).loc = .switched p)
    (hst : ∀ r, s.stack p ≠ .sched :: r) (h : (s.cpu c).noff = 0 ∨ ∀ r, s.stack p ≠ .panic :: r) :
    .sched ∉ s.stack p := by
  rcases (hi.slot p).switched c hloc with hs | ⟨⟨r, hr, -⟩, -, hl⟩
  · exact hs.1
  · exfalso
    rcases hr with hr | hr
    · exact hst r hr
    · rcases h with h | h
      · rw [hi.noff c, held_switched hloc] at h
        rw [List.eq_nil_of_length_eq_zero h] at hl
        cases hl
      · exact h _ hr

theorem Inv.init (n : Nat) : Inv (State.init n) where
  owned := ⟨fun l c => by simp [State.init, State.held], fun c => by simp [State.init, State.held]⟩
  noff := fun c => rfl
  wants := fun p => trivial
  irqWants := fun c => trivial
  irqSched := fun c => List.not_mem_nil
  irqTop := fun c _ => rfl
  cpuProc := fun c => rfl
  one := fun c d p h => by cases h
  slot := fun p => SlotInv.of_idle (fun c => by simp [State.init, SchedLoc.proc]) (by simp [State.init, procinit]) (by
    simp [State.init, procinit])
  forkUsed := fun p np h => by cases h
  forkOne := fun p q np h => by cases h
  forkNodup := fun p => List.nodup_nil

/-- **Every step keeps the invariant.** -/
theorem Inv.step {t : State n} {l : Label n} (hi : Inv s) (hstep : step s l = some t) : Inv t := by
  obtain ⟨c, ch⟩ := l
  obtain ⟨e, k, hcase, rfl, -⟩ := step_case hstep
  clear hstep
  have hidle : (s.cpu c).loc ≠ .top → (s.cpu c).irq = [] := hi.irqTop c
  cases hcase with
  | boot hloc _ hfree _ => exact hi.step_boot hloc hfree
  | start hloc _ =>
    have hirq := hidle (by rw [hloc]; simp)
    have hc : (((s.apply c {}).move c .start).cpu c).irq = [] := by simp [State.move, hirq]
    refine hi.step_scheduler rfl (fun p => Or.inl rfl) (by rw [hloc]; rfl) (by simp [State.move, SchedLoc.proc])
      (by simp [State.move]) ?_ (by simp) (by rw [hc]; trivial) (by rw [hc]; exact List.not_mem_nil)
      (fun _ => hc)
    simp [State.held, hloc, State.move, hirq, locksOf]
  | pass hloc hirq _ =>
    refine hi.step_loc (fun p => rfl) rfl (by rw [hloc]; rfl) rfl hirq ?_ (by simp)
    simp [State.held, hloc, hirq, State.move, locksOf]
  | @irqTake st hloc hirq h =>
    have hl : locksOf none st = locksOf none [] ∧ WantsOk none st := interrupt_locks trivial h
    have hf := interrupt_frames h
    refine hi.step_irq hloc ⟨?_, hl.2, by simp⟩ (.nothing ?_ ?_)
    · rw [hirq, hl.1]
      exact List.Perm.refl _
    · rw [hf.1]
      exact List.not_mem_nil
    · rw [hirq, hf.2]
  | irqExec hloc _ h =>
    exact hi.step_irq hloc (exec_locks (hi.irqWants c) h) (exec_wrote (hi.irqSched c) h)
  | scan hloc hfree =>
    refine hi.step_loc (fun p => rfl) rfl (by rw [hloc]; rfl) rfl (hidle (by rw [hloc]; simp)) ?_ ?_
    · simp [State.held, hloc, State.move]
    · rintro l hl
      exact Option.some.inj hl ▸ hfree
  | @visit i best found hloc =>
    refine hi.step_leave (fun p => ?_) rfl rfl rfl (by rw [hloc]; rfl) (by simp [State.held, hloc])
      (scanAfter_between _ _ _) (hidle (by rw [hloc]; simp))
    rw [move_proc, apply_proc_some _ _ _ rfl]
    by_cases hp : p = i
    · subst hp
      rw [update_self]
      exact schedulerVisit_state _
    · rw [update_of_ne hp]
  | select hloc hfree =>
    refine hi.step_loc (fun p => rfl) rfl (by rw [hloc]; rfl) rfl (hidle (by rw [hloc]; simp)) ?_ ?_
    · simp [State.held, hloc, State.move]
    · rintro l hl
      exact Option.some.inj hl ▸ hfree
  | dispatch hloc hidx hstate _ => exact hi.step_dispatch hloc hidx hstate
  | skip hloc hidx _ =>
    exact hi.step_leave (fun p => rfl) rfl rfl rfl (by rw [hloc]; rfl) (by simp [State.held, hloc, hidx])
      (selectAfter_between _ _) (hidle (by rw [hloc]; simp))
  | swtch hloc hst _ hnoff _ => exact hi.step_swtch hloc hst hnoff
  | schedPanic hloc hst => exact hi.step_schedPanic hloc hst
  | interrupt hloc hst hnoff h =>
    have hs := hi.not_sched hloc hst (Or.inl hnoff)
    have hl := interrupt_locks (hi.wants _) h
    have hf := interrupt_frames h
    refine hi.step_thread hloc hs ⟨?_, hl.2, by simp⟩ (.nothing ?_ hf.2)
    · rw [hl.1]
      exact List.Perm.refl _
    · rwa [hf.1]
  | thread hloc hst h =>
    have hs := hi.not_sched hloc hst (Or.inr fun r hr => by
      rw [hr] at h
      exact h.head_ne_panic)
    exact hi.step_thread hloc hs (exec_locks (hi.wants _) h) (exec_wrote hs h)
  | back hloc => exact hi.step_back hloc
  | wfi hloc =>
    have hirq := hidle (by rw [hloc]; simp)
    refine hi.step_loc (fun p => rfl) rfl (by rw [hloc]; rfl) rfl hirq ?_ (by simp)
    simp [State.held, hloc, hirq, State.move, locksOf]

theorem inv_of_reachable (h : Reachable s) : Inv s :=
  Automaton.Reachable.invariant (Inv.init n) (fun _ _ _ _ hi hs => hi.step hs) h

end Xv6
