import Xv6.Proc.Machine

/-!
# What a step can do

`ExecCase` and `NextCase` list the transitions of `exec` and `next` with their guards, one
constructor each; `exec_case` and `next_case` are the inversions. The proofs about steps split on
these, and read a step's effect field by field through the `apply` and `move` lemmas. `Scanned` lists the
frames that the scans of the table put on a stack; `skips` is the rule for what does not see them.
-/

namespace Xv6
open Function

variable {n : Nat} {s : State n} {c : Fin n} {ch : Choice} {e : Effect} {k : Ctl}

/-- The steps of a kernel thread. -/
inductive ExecCase (s : State n) (c : Fin n) (me : Option Slot) (ch : Choice) :
    List Frame → Effect → List Frame → Prop
  | enter {p : Slot} {e : Effect} {st' : List Frame} (hme : me = some p)
      (h : enter s.initproc p ch = some (e, st')) : ExecCase s c me ch [] e st'
  | acquire {l : Lock} {st : List Frame} (hfree : s.lock l = none) :
      ExecCase s c me ch (.want l :: st) { acquire := some l } st
  | twice {l : Lock} {st : List Frame} (hheld : s.lock l = some c) :
      ExecCase s c me ch (.want l :: st) {} (.panic :: .want l :: st)
  | visit {j : Job} {i : Slot} {st : List Frame} :
      ExecCase s c me ch (.visit j i :: st) (visit (s.proc i) j i st).1 (visit (s.proc i) j i st).2
  | hold {m : Nat} {due : List Cond} {st st' : List Frame} {e : Effect}
      (h : hold s.cond m due st ch = some (e, st')) : ExecCase s c me ch (.hold m due :: st) e st'
  | own {p : Slot} {f : Frame} {st st' : List Frame} {e : Effect} (hme : me = some p)
      (h : own s p ch st f = some (e, st')) : ExecCase s c me ch (f :: st) e st'

theorem exec_case {me : Option Slot} {st st' : List Frame} (h : exec s c me ch st = some (e, st')) :
    ExecCase s c me ch st e st' := by
  unfold exec at h
  split at h
  · obtain ⟨p, hme, h⟩ := Option.bind_eq_some_iff.mp h
    exact .enter hme h
  · split at h
    · rename_i hl
      cases h
      exact .acquire hl
    · rename_i c' hl
      split at h
      · rename_i hc
        cases h
        exact .twice (hc ▸ hl)
      · cases h
  · cases h
  · cases h
    exact .visit
  · exact .hold h
  · obtain ⟨p, hme, h⟩ := Option.bind_eq_some_iff.mp h
    exact .own hme h

/-- The steps of a CPU. -/
inductive NextCase (s : State n) (c : Fin n) (ch : Choice) : Effect → Ctl → Prop
  | boot {tf pt : Nat} (hloc : (s.cpu c).loc = .boot) (hinit : s.initproc = none)
      (hfree : (s.proc 0).state = .unused) (hok : (allocproc s.nextpid tf pt (s.proc 0)).2 = true) :
      NextCase s c ch
        { write := some (0, .userinit s.nextpid tf pt), allocpid := true, spawn := some 0 } (.boot 0)
  | start {i : Slot} (hloc : (s.cpu c).loc = .boot) (hinit : s.initproc = some i) :
      NextCase s c ch {} .start
  | pass (hloc : (s.cpu c).loc = .top) (hirq : (s.cpu c).irq = []) (hch : ch = .run) :
      NextCase s c ch {} (.loc (.scan 0 (priorityMax + 1) false))
  | irqTake {st : List Frame} (hloc : (s.cpu c).loc = .top) (hirq : (s.cpu c).irq = [])
      (h : interrupt none [] ch = some st) : NextCase s c ch {} (.irq st)
  | irqExec {e : Effect} {st : List Frame} (hloc : (s.cpu c).loc = .top)
      (hirq : (s.cpu c).irq ≠ []) (h : ExecCase s c none ch (s.cpu c).irq e st) :
      NextCase s c ch e (.irq st)
  | scan {i : Slot} {best : Int} {found : Bool} (hloc : (s.cpu c).loc = .scan i best found)
      (hfree : s.lock (.proc i) = none) :
      NextCase s c ch { acquire := some (.proc i) } (.loc (.scanIn i best found))
  | visit {i : Slot} {best : Int} {found : Bool} (hloc : (s.cpu c).loc = .scanIn i best found) :
      NextCase s c ch { write := some (i, .visit), release := [.proc i] }
        (.loc (scanAfter i (better (schedulerVisit (s.proc i)) best found).1
          (better (schedulerVisit (s.proc i)) best found).2))
  | select {offset : Slot} {best : Int} (hloc : (s.cpu c).loc = .select offset best)
      (hfree : s.lock (.proc ((s.cpu c).nextIndex + offset)) = none) :
      NextCase s c ch { acquire := some (.proc ((s.cpu c).nextIndex + offset)) }
        (.loc (.selectIn offset best))
  | dispatch {offset i : Slot} {best : Int} (hloc : (s.cpu c).loc = .selectIn offset best)
      (hi : i = (s.cpu c).nextIndex + offset) (hstate : (s.proc i).state = .runnable)
      (hbest : (s.proc i).priority = best) :
      NextCase s c ch { write := some (i, .dispatch) } (.dispatch i)
  | skip {offset i : Slot} {best : Int} (hloc : (s.cpu c).loc = .selectIn offset best)
      (hi : i = (s.cpu c).nextIndex + offset)
      (hno : ¬ ((s.proc i).state = .runnable ∧ (s.proc i).priority = best)) :
      NextCase s c ch { release := [.proc i] } (.loc (selectAfter offset best))
  | swtch {p : Slot} {st : List Frame} (hloc : (s.cpu c).loc = .switched p)
      (hst : s.stack p = .sched :: st) (hlock : s.lock (.proc p) = some c)
      (hnoff : (s.cpu c).noff = 1) (hstate : (s.proc p).state ≠ .running) :
      NextCase s c ch {} (.swtch p st)
  | schedPanic {p : Slot} {st : List Frame} (hloc : (s.cpu c).loc = .switched p)
      (hst : s.stack p = .sched :: st) : NextCase s c ch {} (.thread p (.panic :: .sched :: st))
  | interrupt {p : Slot} {st : List Frame} (hloc : (s.cpu c).loc = .switched p)
      (hst : ∀ r, s.stack p ≠ .sched :: r) (hnoff : (s.cpu c).noff = 0)
      (h : interrupt (some p) (s.stack p) ch = some st) : NextCase s c ch {} (.thread p st)
  | thread {p : Slot} {e : Effect} {st : List Frame} (hloc : (s.cpu c).loc = .switched p)
      (hst : ∀ r, s.stack p ≠ .sched :: r) (h : ExecCase s c (some p) ch (s.stack p) e st) :
      NextCase s c ch e (.thread p st)
  | back {i : Slot} (hloc : (s.cpu c).loc = .back i) :
      NextCase s c ch { release := [.proc i] } (.back i)
  | wfi (hloc : (s.cpu c).loc = .wfi) : NextCase s c ch {} (.loc .top)

theorem nextBoot_case (hloc : (s.cpu c).loc = .boot) (h : nextBoot s c ch = some (e, k)) : NextCase s c ch e k := by
  unfold nextBoot at h
  split at h
  · rename_i hi
    obtain ⟨i, hi⟩ := Option.isSome_iff_exists.mp hi
    cases h
    exact .start hloc hi
  · rename_i hi
    split at h
    · rename_i h0
      split at h
      · split at h
        · rename_i hok
          cases h
          exact .boot hloc (by simpa using hi) h0.2 hok
        · cases h
      · cases h
    · cases h

theorem nextTop_case (hloc : (s.cpu c).loc = .top) (h : nextTop s c ch = some (e, k)) : NextCase s c ch e k := by
  unfold nextTop at h
  split at h
  · rename_i hirq
    split at h
    · rename_i hch
      cases h
      exact .pass hloc hirq hch
    · obtain ⟨st, hst, h⟩ := Option.map_eq_some_iff.mp h
      cases h
      exact .irqTake hloc hirq hst
  · rename_i hirq
    obtain ⟨⟨e', st'⟩, hr, h⟩ := Option.map_eq_some_iff.mp h
    cases h
    exact .irqExec hloc hirq (exec_case hr)

theorem nextThread_case {p : Slot} (hloc : (s.cpu c).loc = .switched p) (h : nextThread s c ch p = some (e, k)) :
    NextCase s c ch e k := by
  unfold nextThread at h
  split at h
  · rename_i st hst
    split at h
    · rename_i hg
      cases h
      exact .swtch hloc hst hg.1 hg.2.1 hg.2.2
    · cases h
      exact .schedPanic hloc hst
  · rename_i hst
    split at h
    · rename_i st' hi
      cases h
      split at hi
      · rename_i hnoff
        exact .interrupt hloc hst hnoff hi
      · cases hi
    · obtain ⟨⟨e', st'⟩, hr, h⟩ := Option.map_eq_some_iff.mp h
      cases h
      exact .thread hloc hst (exec_case hr)

theorem next_case (h : next s c ch = some (e, k)) : NextCase s c ch e k := by
  unfold next at h
  split at h
  case h_1 hloc => exact nextBoot_case hloc h
  case h_2 hloc => exact nextTop_case hloc h
  case h_3 hloc =>
    unfold nextAcquire at h
    split at h
    · rename_i hfree
      cases h
      exact .scan hloc hfree
    · cases h
  case h_4 hloc =>
    cases h
    exact .visit hloc
  case h_5 hloc =>
    unfold nextAcquire at h
    split at h
    · rename_i hfree
      cases h
      exact .select hloc hfree
    · cases h
  case h_6 hloc =>
    unfold nextSelect at h
    dsimp only at h
    split at h
    · rename_i hg
      cases h
      exact .dispatch hloc rfl hg.1 hg.2
    · rename_i hg
      cases h
      exact .skip hloc rfl hg
  case h_7 hloc => exact nextThread_case hloc h
  case h_8 hloc =>
    cases h
    exact .back hloc
  case h_9 hloc =>
    cases h
    exact .wfi hloc

/-- **Inversion of a step.** -/
theorem step_case {t : State n} (h : step s (c, ch) = some t) :
    ∃ e k, NextCase s c ch e k ∧ t = (s.apply c e).move c k ∧ writeOf s (c, ch) = e.write := by
  unfold step at h
  obtain ⟨⟨e, k⟩, hn, rfl⟩ := Option.map_eq_some_iff.mp h
  refine ⟨e, k, next_case hn, rfl, ?_⟩
  change next s c ch = some (e, k) at hn
  simp [writeOf, hn]

/-! ## The state after a step, field by field -/

section Fields
variable (s : State n) (c : Fin n) (e : Effect) (k : Ctl) {d : Fin n}

@[simp] theorem setCpu_cpu_self (cpu : Cpu) : (s.setCpu c cpu).cpu c = cpu := by
  simp [State.setCpu]

@[simp] theorem setStack_stack_self (p : Slot) (st : List Frame) : (s.setStack p st).stack p = st := by
  simp [State.setStack]

theorem setCpu_cpu_ne (h : d ≠ c) (cpu : Cpu) : (s.setCpu c cpu).cpu d = s.cpu d := by
  simp [State.setCpu, h]

theorem setStack_stack_ne {p q : Slot} (h : q ≠ p) (st : List Frame) :
    (s.setStack p st).stack q = s.stack q := by
  simp [State.setStack, h]

@[simp] theorem move_proc : (s.move c k).proc = s.proc := by
  cases k <;> rfl

@[simp] theorem move_lock : (s.move c k).lock = s.lock := by
  cases k <;> rfl

@[simp] theorem move_cond : (s.move c k).cond = s.cond := by
  cases k <;> rfl

theorem move_cpu_ne (h : d ≠ c) : (s.move c k).cpu d = s.cpu d := by
  cases k
  case thread p st => rfl
  case boot i => rfl
  case swtch p st => exact setCpu_cpu_ne _ _ h _
  all_goals exact setCpu_cpu_ne _ _ h _

theorem apply_cpu_ne (h : d ≠ c) : (s.apply c e).cpu d = s.cpu d :=
  update_of_ne h _ _

@[simp] theorem apply_cpu_self : (s.apply c e).cpu c =
    { s.cpu c with noff := (s.cpu c).noff + e.acquire.toList.length - e.release.length } :=
  update_self _ _ _

@[simp] theorem apply_lock : (s.apply c e).lock = Owner.update s.lock c e.acquire e.release := rfl

@[simp] theorem apply_initproc : (s.apply c e).initproc = s.initproc := rfl

theorem apply_proc_none (h : e.write = none) : (s.apply c e).proc = s.proc := by
  simp only [State.apply, h]

theorem apply_proc_some {i : Slot} {op : Op} (h : e.write = some (i, op)) :
    (s.apply c e).proc = update s.proc i (op.apply (s.proc i)) := by
  simp only [State.apply, h]

theorem apply_stack_none (h : e.spawn = none) : (s.apply c e).stack = s.stack := by
  simp only [State.apply, h]

theorem apply_stack_some {i : Slot} (h : e.spawn = some i) :
    (s.apply c e).stack = update s.stack i [.unlockSelf] := by
  simp only [State.apply, h]

end Fields

/-! ## The frames of a scan -/

/-- What the steps of a scan of the table put on a stack. -/
inductive Scanned (st : List Frame) : List Frame → Prop
  | done : Scanned st st
  | visit (j : Job) (i : Slot) : Scanned st (.want (.proc i) :: .visit j i :: st)
  | sysret (v : Int) : Scanned st (.sysret v :: st)
  | reparent (status : Int) (i : Slot) : Scanned st (.reparent status i :: st)
  | exitWakeup (status : Int) : Scanned st (.exitWakeup status :: st)
  | waitScan (addr : Nat) (i : Slot) (havekids : Bool) : Scanned st (.waitScan addr i havekids :: st)
  | waitKilled (p : Slot) (addr : Nat) : Scanned st (.want (.proc p) :: .waitKilled addr :: st)
  | waitFail : Scanned st (.waitFail :: st)

def Frame.scanning : Frame → Bool
  | .want _ | .visit _ _ | .sysret _ | .reparent _ _ | .exitWakeup _ | .waitScan _ _ _ | .waitKilled _
  | .waitFail => true
  | _ => false

section Scanned
variable {α : Sort*} {g : List Frame → α} {st st' : List Frame}

theorem scanned_scanFrom (j : Job) : Scanned st (scanFrom j st) := .visit j 0

theorem scanned_scanNext (j : Job) (i : Slot) : Scanned st (scanNext j i st) := by
  unfold scanNext
  split
  · exact .visit j _
  · cases j
    case wakeup => exact .done
    all_goals exact .sysret _

theorem scanned_reparentNext (status : Int) (i : Slot) : Scanned st (reparentNext status i st) := by
  unfold reparentNext
  split
  · exact .reparent status _
  · exact .exitWakeup status

theorem scanned_waitNext (p : Slot) (addr : Nat) (i : Slot) (havekids : Bool) :
    Scanned st (waitNext p addr i havekids st) := by
  unfold waitNext
  split
  · exact .waitScan addr _ havekids
  · cases havekids
    · exact .waitFail
    · exact .waitKilled p addr

theorem Scanned.mem (h : Scanned st st') {f : Frame} (hf : f ∈ st) : f ∈ st' := by
  cases h <;> simp [hf]

theorem Scanned.eq (h : Scanned st st') (hg : ∀ f st, f.scanning = true → g (f :: st) = g st) : g st' = g st := by
  cases h
  case done => rfl
  case visit => rw [hg _ _ rfl, hg _ _ rfl]
  case waitKilled => rw [hg _ _ rfl, hg _ _ rfl]
  all_goals exact hg _ _ rfl

/-- `g` does not see the frames of a scan. -/
abbrev Skips (g : List Frame → α) : Prop :=
  (∀ j st, g (scanFrom j st) = g st) ∧ (∀ j i st, g (scanNext j i st) = g st) ∧
    (∀ status i st, g (reparentNext status i st) = g st) ∧
    ∀ p addr i havekids st, g (waitNext p addr i havekids st) = g st

theorem skips (hg : ∀ f st, f.scanning = true → g (f :: st) = g st) : Skips g :=
  ⟨fun j _ => (scanned_scanFrom j).eq hg, fun j i _ => (scanned_scanNext j i).eq hg,
    fun status i _ => (scanned_reparentNext status i).eq hg,
    fun p addr i havekids _ => (scanned_waitNext p addr i havekids).eq hg⟩

theorem mem_skips {f : Frame} (hf : f.scanning = false) : Skips fun st => f ∈ st :=
  skips fun f' st hf' => by
    have hne : f ≠ f' := by
      rintro rfl
      rw [hf] at hf'
      cases hf'
    rw [List.mem_cons, or_iff_right hne]

end Scanned

/-- The process table after a write. -/
def tableAfter (P : Slot → Proc) : Option (Slot × Op) → Slot → Proc
  | none => P
  | some (i, op) => update P i (op.apply (P i))

theorem step_table {t : State n} {l : Label n} (h : step s l = some t) :
    t.proc = tableAfter s.proc (writeOf s l) := by
  obtain ⟨c, ch⟩ := l
  obtain ⟨e, k, -, rfl, hw⟩ := step_case h
  rw [hw, move_proc]
  rfl

end Xv6
