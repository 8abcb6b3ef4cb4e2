import Xv6.Proc.Writes

/-!
# The hand-over of a process between its thread and the schedulers

`p->lock` is acquired on one side of `swtch()` and released on the other. `Inv` says what holds in
between: who holds which lock, in which state a slot is while a CPU is entering or leaving its
thread, and what the saved stack of a thread that is not on a CPU looks like.

* `held s c` : the locks the code CPU `c` is executing holds;
* `Saved p st` : the stack of a thread that waits to be switched to; it holds `p->lock` only;
* `Leaving st` : the thread has changed its state and is about to call `swtch()`;
* `Inv.step_scheduler`, `Inv.step_thread` : steps on one side of `swtch()` keep `Inv`.
-/

namespace Xv6
open Function

variable {n : Nat} {p : Slot} {s t : State n} {c : Fin n}

/-- The process a scheduler has switched to and not yet let go of. -/
def SchedLoc.proc : SchedLoc → Option Slot
  | .switched i | .back i => some i
  | _ => none

/-- The locks held by the code that CPU `c` executes. -/
def State.held (s : State n) (c : Fin n) : List Lock :=
  match (s.cpu c).loc with
  | .top => locksOf none (s.cpu c).irq
  | .scanIn i _ _ => [.proc i]
  | .selectIn offset _ => [.proc ((s.cpu c).nextIndex + offset)]
  | .switched p => locksOf (some p) (s.stack p)
  | .back i => [.proc i]
  | _ => []

def Saved (p : Slot) (st : List Frame) : Prop :=
  locksOf (some p) st = [.proc p] ∧ .sched ∉ st

def Leaving (st : List Frame) : Prop :=
  ∃ r, (st = .sched :: r ∨ st = .panic :: .sched :: r) ∧ .sched ∉ r

/-- The states in which a process leaves its CPU. -/
def Resting (x : ProcState) : Prop := x = .runnable ∨ x = .sleeping ∨ x = .zombie

/-- Slot `p` while a CPU is in its thread, while a scheduler takes it back, and otherwise. -/
structure SlotInv (s : State n) (p : Slot) : Prop where
  switched : ∀ c, (s.cpu c).loc = .switched p →
    (.sched ∉ s.stack p ∧ (s.proc p).state = .running) ∨
      (Leaving (s.stack p) ∧ Resting (s.proc p).state ∧ .proc p ∈ locksOf (some p) (s.stack p))
  back : ∀ c, (s.cpu c).loc = .back p → Resting (s.proc p).state ∧ Saved p (s.stack p)
  idle : (∀ c, (s.cpu c).loc.proc ≠ some p) → (s.proc p).state ≠ .running ∧
    ((s.proc p).state = .used ∨ (s.proc p).state = .runnable ∨ (s.proc p).state = .sleeping →
      Saved p (s.stack p))

structure Inv (s : State n) : Prop where
  owned : Owner.Owned s.lock s.held
  noff : ∀ c, (s.cpu c).noff = (s.held c).length
  wants : ∀ p, WantsOk (some p) (s.stack p)
  irqWants : ∀ c, WantsOk none (s.cpu c).irq
  irqSched : ∀ c, .sched ∉ (s.cpu c).irq
  irqTop : ∀ c, (s.cpu c).loc ≠ .top → (s.cpu c).irq = []
  cpuProc : ∀ c, (s.cpu c).proc = (s.cpu c).loc.proc
  one : ∀ c d p, (s.cpu c).loc.proc = some p → (s.cpu d).loc.proc = some p → c = d
  slot : ∀ p, SlotInv s p
  forkUsed : ∀ p np, np ∈ children (s.stack p) → (s.proc np).state = .used
  forkOne : ∀ p q np, np ∈ children (s.stack p) → np ∈ children (s.stack q) → p = q
  forkNodup : ∀ p, (children (s.stack p)).Nodup

/-! ## Who can be on a CPU -/

theorem SchedLoc.proc_eq_some {l : SchedLoc} : l.proc = some p ↔ l = .switched p ∨ l = .back p := by
  cases l <;> simp [SchedLoc.proc]

section OnCpu
variable {s : State n} {c : Fin n} {p : Slot}

theorem held_switched (h : (s.cpu c).loc = .switched p) :
    s.held c = locksOf (some p) (s.stack p) := by
  simp [State.held, h]

theorem held_back (h : (s.cpu c).loc = .back p) : s.held c = [.proc p] := by
  simp [State.held, h]

/-- A slot that is free, or being built, is on no CPU. -/
theorem Inv.idle_of_state (hi : Inv s) (h : (s.proc p).state = .unused ∨ (s.proc p).state = .used)
    (c : Fin n) : (s.cpu c).loc.proc ≠ some p := by
  intro hc
  rcases SchedLoc.proc_eq_some.mp hc with hc | hc
  · rcases (hi.slot p).switched c hc with ⟨-, hr⟩ | ⟨-, hr, -⟩
    · rw [hr] at h
      simp at h
    · rcases hr with hr | hr | hr <;> rw [hr] at h <;> simp at h
  · rcases ((hi.slot p).back c hc).1 with hr | hr | hr <;> rw [hr] at h <;> simp at h

/-- A process whose lock CPU `c` holds, and that is neither running nor on `c`, is on no CPU:
whoever enters or leaves its thread holds the lock. -/
theorem Inv.idle_of_held (hi : Inv s) (hl : .proc p ∈ s.held c) (hc : (s.cpu c).loc.proc ≠ some p)
    (hstate : (s.proc p).state ≠ .running) (d : Fin n) : (s.cpu d).loc.proc ≠ some p := by
  intro hd
  have hmem : .proc p ∈ s.held d := by
    rcases SchedLoc.proc_eq_some.mp hd with hd | hd
    · rcases (hi.slot p).switched d hd with ⟨-, hr⟩ | ⟨-, -, hm⟩
      · exact absurd hr hstate
      · rw [held_switched hd]
        exact hm
    · rw [held_back hd]
      exact List.mem_singleton_self _
  have := hi.owned.unique hl hmem
  subst this
  exact hc hd

end OnCpu

/-! ## Slots a step does not touch -/

theorem SlotInv.congr (h : SlotInv s p) (hstate : (t.proc p).state = (s.proc p).state) (hst : t.stack p = s.stack p)
    (hsw : ∀ c, (t.cpu c).loc = .switched p ↔ (s.cpu c).loc = .switched p)
    (hbk : ∀ c, (t.cpu c).loc = .back p ↔ (s.cpu c).loc = .back p) : SlotInv t p := by
  refine ⟨fun c hc => ?_, fun c hc => ?_, fun hc => ?_⟩
  · rw [hstate, hst]
    exact h.switched c ((hsw c).mp hc)
  · rw [hstate, hst]
    exact h.back c ((hbk c).mp hc)
  · rw [hstate, hst]
    refine h.idle fun c hp => hc c ?_
    rw [SchedLoc.proc_eq_some] at hp ⊢
    exact hp.imp (hsw c).mpr (hbk c).mpr

/-- A slot on no CPU, in a state other than running, is in order when its saved stack is. -/
theorem SlotInv.of_idle (hc : ∀ c, (t.cpu c).loc.proc ≠ some p) (hstate : (t.proc p).state ≠ .running)
    (hs : (t.proc p).state = .used ∨ (t.proc p).state = .runnable ∨ (t.proc p).state = .sleeping →
    Saved p (t.stack p)) : SlotInv t p := by
  refine ⟨fun c h => absurd ?_ (hc c), fun c h => absurd ?_ (hc c), fun _ => ⟨hstate, hs⟩⟩
  · rw [h]
    rfl
  · rw [h]
    rfl

/-- A slot on CPU `c` alone is in order when its state fits its stack. -/
theorem SlotInv.of_switched (hc : (t.cpu c).loc = .switched p) (hone : ∀ d, (t.cpu d).loc.proc = some p → d = c)
    (h : (.sched ∉ t.stack p ∧ (t.proc p).state = .running) ∨ (Leaving (t.stack p) ∧ Resting (t.proc p).state ∧
      .proc p ∈ locksOf (some p) (t.stack p))) : SlotInv t p := by
  refine ⟨fun _ _ => h, fun d hd => ?_, fun hd => absurd ?_ (hd c)⟩
  · have := hone d (by rw [hd]; rfl)
    subst this
    rw [hd] at hc
    cases hc
  · rw [hc]
    rfl

theorem held_congr (hcpu : t.cpu c = s.cpu c) (hst : ∀ p, (s.cpu c).loc = .switched p → t.stack p = s.stack p) :
    t.held c = s.held c := by
  unfold State.held
  rw [hcpu]
  split <;> simp_all

/-! ## The parts of a step -/

section Parts
variable {s : State n} {c : Fin n} {e : Effect} {k : Ctl}

theorem move_noff : ((s.move c k).cpu c).noff = (s.cpu c).noff := by
  cases k <;> simp [State.move, State.setStack]

theorem step_cpu_ne {d : Fin n} (h : d ≠ c) : ((s.apply c e).move c k).cpu d = s.cpu d := by
  rw [move_cpu_ne _ _ _ h, apply_cpu_ne _ _ _ h]

/-- The lock table after a step, from the locks the CPU holds before and after it. -/
theorem Inv.locks_step (hi : Inv s)
    (hperm : (e.acquire.toList ++ s.held c).Perm (e.release ++ ((s.apply c e).move c k).held c))
    (hfree : ∀ l, e.acquire = some l → s.lock l = none)
    (hother : ∀ d, d ≠ c → ((s.apply c e).move c k).held d = s.held d) :
    Owner.Owned ((s.apply c e).move c k).lock ((s.apply c e).move c k).held ∧
      ∀ d, (((s.apply c e).move c k).cpu d).noff = (((s.apply c e).move c k).held d).length := by
  constructor
  · rw [move_lock, apply_lock]
    exact hi.owned.step hfree hperm hother
  · intro d
    by_cases hd : d = c
    · subst hd
      have hlen := hperm.length_eq
      rw [List.length_append, List.length_append] at hlen
      rw [move_noff, apply_cpu_self]
      have := hi.noff d
      dsimp only
      omega
    · rw [hother d hd, step_cpu_ne hd]
      exact hi.noff d

section
variable (hi : Inv s) (hperm : (e.acquire.toList ++ s.held c).Perm (e.release ++ ((s.apply c e).move c k).held c))
  (hfree : ∀ l, e.acquire = some l → s.lock l = none)
  (hstack : ∀ d, d ≠ c → ∀ p, (s.cpu d).loc = .switched p →
    ((s.apply c e).move c k).stack p = s.stack p)
  (hwants : ∀ p, WantsOk (some p) (((s.apply c e).move c k).stack p))
  (hirqWants : WantsOk none (((s.apply c e).move c k).cpu c).irq)
  (hirqSched : .sched ∉ (((s.apply c e).move c k).cpu c).irq)
  (hirqTop : (((s.apply c e).move c k).cpu c).loc ≠ .top →
    (((s.apply c e).move c k).cpu c).irq = [])
  (hproc : (((s.apply c e).move c k).cpu c).proc = (((s.apply c e).move c k).cpu c).loc.proc)
  (hone : ∀ d, d ≠ c → ∀ p, (((s.apply c e).move c k).cpu c).loc.proc = some p →
    (s.cpu d).loc.proc ≠ some p)
  (hslot : ∀ p, SlotInv ((s.apply c e).move c k) p)
include hi hperm hfree hstack hwants hirqWants hirqSched hirqTop hproc hone hslot

/-- What a step of CPU `c` has to establish; the other CPUs are as before. -/
theorem Inv.step_of
    (hforkUsed : ∀ p np, np ∈ children (((s.apply c e).move c k).stack p) →
      (((s.apply c e).move c k).proc np).state = .used)
    (hforkOne : ∀ p q np, np ∈ children (((s.apply c e).move c k).stack p) →
      np ∈ children (((s.apply c e).move c k).stack q) → p = q)
    (hforkNodup : ∀ p, (children (((s.apply c e).move c k).stack p)).Nodup) :
    Inv ((s.apply c e).move c k) := by
  obtain ⟨howned, hnoff⟩ := hi.locks_step hperm hfree fun d hd =>
    held_congr (step_cpu_ne hd) (hstack d hd)
  have hcpu : ∀ d, d ≠ c → ((s.apply c e).move c k).cpu d = s.cpu d := fun d hd => step_cpu_ne hd
  refine
    { owned := howned, noff := hnoff, wants := hwants, irqWants := ?_, irqSched := ?_, irqTop := ?_,
      cpuProc := ?_, one := ?_, slot := hslot, forkUsed := hforkUsed, forkOne := hforkOne,
      forkNodup := hforkNodup }
  · intro d
    by_cases hd : d = c
    · rwa [hd]
    · rw [hcpu d hd]
      exact hi.irqWants d
  · intro d
    by_cases hd : d = c
    · rwa [hd]
    · rw [hcpu d hd]
      exact hi.irqSched d
  · intro d
    by_cases hd : d = c
    · rwa [hd]
    · rw [hcpu d hd]
      exact hi.irqTop d
  · intro d
    by_cases hd : d = c
    · rwa [hd]
    · rw [hcpu d hd]
      exact hi.cpuProc d
  · intro d d' p h h'
    by_cases hd : d = c
    · by_cases hd' : d' = c
      · rw [hd, hd']
      · rw [hd] at h
        rw [hcpu d' hd'] at h'
        exact absurd h' (hone d' hd' p h)
    · rw [hcpu d hd] at h
      by_cases hd' : d' = c
      · rw [hd'] at h'
        exact absurd h (hone d hd p h')
      · rw [hcpu d' hd'] at h'
        exact hi.one d d' p h h'

/-- A step that starts or ends the building of no child. -/
theorem Inv.step_keep
    (hused : ∀ p, (s.proc p).state = .used → (((s.apply c e).move c k).proc p).state = .used)
    (hkids : ∀ p, children (((s.apply c e).move c k).stack p) = children (s.stack p) ∨
      children (((s.apply c e).move c k).stack p) = []) :
    Inv ((s.apply c e).move c k) := by
  have hsub : ∀ p np, np ∈ children (((s.apply c e).move c k).stack p) →
      np ∈ children (s.stack p) := by
    intro p np hnp
    rcases hkids p with h | h
    · rwa [h] at hnp
    · rw [h] at hnp
      cases hnp
  refine hi.step_of hperm hfree hstack hwants hirqWants hirqSched hirqTop hproc hone hslot ?_ ?_ ?_
  · intro p np hnp
    exact hused np (hi.forkUsed p np (hsub p np hnp))
  · intro p q np hp hq
    exact hi.forkOne p q np (hsub p np hp) (hsub q np hq)
  · intro p
    rcases hkids p with h | h
    · rw [h]
      exact hi.forkNodup p
    · rw [h]
      exact List.nodup_nil

end

end Parts

/-- A slot's state is as before, or a sleeper on no CPU has been woken. -/
def SameOrWoken (s t : State n) (p : Slot) : Prop :=
  (t.proc p).state = (s.proc p).state ∨
    ((s.proc p).state = .sleeping ∧ (t.proc p).state = .runnable ∧
      ∀ c, (s.cpu c).loc.proc ≠ some p)

theorem SlotInv.of_sameOrWoken (h : SlotInv s p) (hw : SameOrWoken s t p) (hst : t.stack p = s.stack p)
    (hsw : ∀ c, (t.cpu c).loc = .switched p ↔ (s.cpu c).loc = .switched p)
    (hbk : ∀ c, (t.cpu c).loc = .back p ↔ (s.cpu c).loc = .back p) : SlotInv t p := by
  rcases hw with hw | ⟨h1, h2, h3⟩
  · exact h.congr hw hst hsw hbk
  · refine SlotInv.of_idle (fun c hc => h3 c ?_) (by rw [h2]; simp) fun _ => ?_
    · rw [SchedLoc.proc_eq_some] at hc ⊢
      exact hc.imp (hsw c).mp (hbk c).mp
    · rw [hst]
      exact (h.idle h3).2 (Or.inr (Or.inr h1))

theorem SameOrWoken.used (hw : SameOrWoken s t p) (h : (s.proc p).state = .used) : (t.proc p).state = .used := by
  rcases hw with hw | ⟨h1, -, -⟩
  · rw [hw, h]
  · rw [h] at h1
    cases h1

/-! ## Steps of a scheduler outside `swtch()` -/

/-- A step that changes no stack, wakes sleepers at most, and leaves CPU `c` in its scheduler. -/
theorem Inv.step_scheduler {e : Effect} {k : Ctl} (hi : Inv s) (hstack : ((s.apply c e).move c k).stack = s.stack)
    (hstate : ∀ p, SameOrWoken s ((s.apply c e).move c k) p) (hloc : (s.cpu c).loc.proc = none)
    (hloc' : (((s.apply c e).move c k).cpu c).loc.proc = none) (hproc : (((s.apply c e).move c k).cpu c).proc = none)
    (hperm : (e.acquire.toList ++ s.held c).Perm (e.release ++ ((s.apply c e).move c k).held c))
    (hfree : ∀ l, e.acquire = some l → s.lock l = none) (hwants : WantsOk none (((s.apply c e).move c k).cpu c).irq)
    (hsched : .sched ∉ (((s.apply c e).move c k).cpu c).irq)
    (htop : (((s.apply c e).move c k).cpu c).loc ≠ .top → (((s.apply c e).move c k).cpu c).irq = []) :
    Inv ((s.apply c e).move c k) := by
  have hat : ∀ (l : SchedLoc) (p : Slot), l.proc = some p →
      ∀ d, (((s.apply c e).move c k).cpu d).loc = l ↔ (s.cpu d).loc = l := by
    intro l p hl d
    by_cases hd : d = c
    · subst hd
      constructor
      · intro h
        rw [h, hl] at hloc'
        cases hloc'
      · intro h
        rw [h, hl] at hloc
        cases hloc
    · rw [step_cpu_ne hd]
  refine hi.step_keep hperm hfree (fun _ _ p _ => congrFun hstack p) ?_ hwants hsched htop
    (by rw [hproc, hloc']) ?_ ?_ (fun p => (hstate p).used) (fun p => Or.inl (by rw [hstack]))
  · intro p
    rw [hstack]
    exact hi.wants p
  · intro d _ p h
    rw [hloc'] at h
    cases h
  · intro p
    exact (hi.slot p).of_sameOrWoken (hstate p) (congrFun hstack p) (hat (.switched p) p rfl)
      (hat (.back p) p rfl)

/-! ## Steps of a thread -/

theorem allocproc_state (pid : Int) (tf pt : Nat) (p : Proc) :
    (allocproc pid tf pt p).1.state = if (allocproc pid tf pt p).2 then .used else .unused := by
  unfold allocproc
  dsimp only
  split
  · rfl
  · split <;> rfl

theorem Op.Private.state {op : Op} (h : op.Private) (p : Proc) : (op.apply p).state = p.state := by
  cases h <;> rfl

theorem Leave.resting {p : Proc} {op : Op} (h : Leave p op) : Resting (op.apply p).state := by
  cases h <;> simp [Op.apply, Resting]

/-- What a step of `p`'s thread does to the slot of another process. -/
inductive Touched (s t : State n) (p q : Slot) : Prop
  | same (hstate : (t.proc q).state = (s.proc q).state) (hst : t.stack q = s.stack q)
  | woken (hs : (s.proc q).state = .sleeping) (ht : (t.proc q).state = .runnable)
      (hst : t.stack q = s.stack q) (hidle : ∀ c, (s.cpu c).loc.proc ≠ some q)
  | born (hs : (s.proc q).state = .unused) (ht : (t.proc q).state = .used)
      (hst : t.stack q = [.unlockSelf])
  | dropped (hs : (s.proc q).state = .used) (ht : (t.proc q).state = .unused)
      (hst : t.stack q = s.stack q) (hk : children (s.stack p) = q :: children (t.stack p))
  | published (hs : (s.proc q).state = .used) (ht : (t.proc q).state = .runnable)
      (hst : t.stack q = s.stack q) (hk : children (s.stack p) = q :: children (t.stack p))
  | reaped (hs : (s.proc q).state = .zombie) (ht : (t.proc q).state = .unused)
      (hst : t.stack q = s.stack q) (hidle : ∀ c, (s.cpu c).loc.proc ≠ some q)

theorem Touched.slotInv {q : Slot} (h : Touched s t p q) (hi : Inv s) (hloc : ∀ c, (t.cpu c).loc = (s.cpu c).loc) :
    SlotInv t q := by
  have hidle : (∀ c, (s.cpu c).loc.proc ≠ some q) → ∀ c, (t.cpu c).loc.proc ≠ some q := by
    intro h c
    rw [hloc]
    exact h c
  have hsaved : (s.proc q).state = .used → Saved q (s.stack q) := fun hu =>
    ((hi.slot q).idle (hi.idle_of_state (Or.inr hu))).2 (Or.inl hu)
  cases h with
  | same hstate hst =>
    exact (hi.slot q).congr hstate hst (fun c => by rw [hloc]) (fun c => by rw [hloc])
  | woken hs ht hst hid =>
    refine SlotInv.of_idle (hidle hid) (by rw [ht]; simp) fun _ => ?_
    rw [hst]
    exact ((hi.slot q).idle hid).2 (Or.inr (Or.inr hs))
  | born hs ht hst =>
    refine SlotInv.of_idle (hidle (hi.idle_of_state (Or.inl hs))) (by rw [ht]; simp) fun _ => ?_
    rw [hst]
    simp [Saved, locksOf, Frame.locks, self]
  | dropped hs ht hst _ =>
    refine SlotInv.of_idle (hidle (hi.idle_of_state (Or.inr hs))) (by rw [ht]; simp) ?_
    rw [ht]
    simp
  | published hs ht hst _ =>
    refine SlotInv.of_idle (hidle (hi.idle_of_state (Or.inr hs))) (by rw [ht]; simp) fun _ => ?_
    rw [hst]
    exact hsaved hs
  | reaped hs ht hst hid =>
    refine SlotInv.of_idle (hidle hid) (by rw [ht]; simp) ?_
    rw [ht]
    simp

section Thread
variable {s : State n} {c : Fin n} {p : Slot} {e : Effect} {st' : List Frame} {q np : Slot}

/-- A thread that is not about to leave is running. -/
theorem Inv.running (hi : Inv s) (hloc : (s.cpu c).loc = .switched p) (hs : .sched ∉ s.stack p) :
    (s.proc p).state = .running := by
  rcases (hi.slot p).switched c hloc with h | ⟨⟨r, hr, -⟩, -⟩
  · exact h.2
  · exfalso
    rcases hr with hr | hr <;> simp [hr] at hs

theorem Inv.other_of_lock (hi : Inv s) (hloc : (s.cpu c).loc = .switched p) {i : Slot}
    (hip : i ≠ p) (hl : .proc i ∈ locksOf (some p) (s.stack p))
    (hstate : (s.proc i).state ≠ .running) (d : Fin n) : (s.cpu d).loc.proc ≠ some i := by
  refine hi.idle_of_held (c := c) ?_ ?_ hstate d
  · rw [held_switched hloc]
    exact hl
  · rw [hloc]
    exact fun h => hip (Option.some.inj h).symm

theorem thread_stack_self : ((s.apply c e).move c (.thread p st')).stack p = st' := by
  simp [State.move]

theorem thread_stack_ne (hq : q ≠ p) :
    ((s.apply c e).move c (.thread p st')).stack q = (s.apply c e).stack q := by
  simp [State.move, setStack_stack_ne _ hq]

theorem thread_cpu (d : Fin n) : (((s.apply c e).move c (.thread p st')).cpu d) =
    if d = c then { s.cpu c with noff := (s.cpu c).noff + e.acquire.toList.length - e.release.length }
    else s.cpu d := by
  by_cases hd : d = c
  · subst hd
    simp [State.move, State.setStack]
  · rw [step_cpu_ne hd, if_neg hd]

theorem thread_loc (d : Fin n) :
    (((s.apply c e).move c (.thread p st')).cpu d).loc = (s.cpu d).loc := by
  rw [thread_cpu]
  split
  · rename_i hd
    rw [hd]
  · rfl

/-- The slots of the other processes after a step of `p`'s thread. -/
theorem Inv.touched (hi : Inv s) (hloc : (s.cpu c).loc = .switched p) (hs : .sched ∉ s.stack p)
    (hw : Wrote s (some p) (s.stack p) st' e.write e.spawn) (hq : q ≠ p) :
    Touched s ((s.apply c e).move c (.thread p st')) p q := by
  have hrun := hi.running hloc hs
  have hstack : ((s.apply c e).move c (.thread p st')).stack q = (s.apply c e).stack q :=
    thread_stack_ne hq
  have hproc : ((s.apply c e).move c (.thread p st')).proc = (s.apply c e).proc := move_proc _ _ _
  -- a slot that the step neither writes nor makes a thread for
  have hsame : ∀ i op, e.write = some (i, op) → e.spawn = none → i ≠ q →
      Touched s ((s.apply c e).move c (.thread p st')) p q := by
    intro i op hwr hsp hiq
    refine .same ?_ ?_
    · rw [hproc, apply_proc_some _ _ _ hwr, update_of_ne (Ne.symm hiq)]
    · rw [hstack, apply_stack_none _ _ _ hsp]
  have hst : e.spawn = none →
      ((s.apply c e).move c (.thread p st')).stack q = s.stack q := by
    intro hsp
    rw [hstack, apply_stack_none _ _ _ hsp]
  have hwrote : ∀ op, e.write = some (q, op) →
      ((s.apply c e).move c (.thread p st')).proc q = op.apply (s.proc q) := by
    intro op hwr
    rw [hproc, apply_proc_some _ _ _ hwr, update_self]
  generalize hwr : e.write = w at hw
  generalize hsp : e.spawn = sp at hw
  cases hw with
  | nothing _ _ =>
    refine .same ?_ (hst hsp)
    rw [hproc, apply_proc_none _ _ _ hwr]
  | leave hme _ _ _ _ _ =>
    obtain rfl := Option.some.inj hme
    exact hsame _ _ hwr hsp (Ne.symm hq)
  | self hme _ _ _ =>
    obtain rfl := Option.some.inj hme
    exact hsame _ _ hwr hsp (Ne.symm hq)
  | @scan j i op hop hl _ _ =>
    by_cases hiq : i = q
    · subst hiq
      rcases hop.state with h | ⟨h1, h2⟩
      · exact .same (by rw [hwrote _ hwr, h]) (hst hsp)
      · refine .woken h1 (by rw [hwrote _ hwr, h2]) (hst hsp) ?_
        exact hi.other_of_lock hloc hq hl (by rw [h1]; simp)
    · exact hsame _ _ hwr hsp hiq
  | @alloc p' i tf pt _ hstate hok _ _ _ =>
    by_cases hiq : i = q
    · subst hiq
      refine .born hstate ?_ ?_
      · rw [hwrote _ hwr]
        change (allocproc s.nextpid tf pt (s.proc i)).1.state = .used
        rw [allocproc_state, hok]
        rfl
      · rw [hstack, apply_stack_some _ _ _ hsp, update_self]
    · refine .same ?_ ?_
      · rw [hproc, apply_proc_some _ _ _ hwr, update_of_ne (Ne.symm hiq)]
      · rw [hstack, apply_stack_some _ _ _ hsp, update_of_ne (Ne.symm hiq)]
  | @allocFail p' i tf pt _ hstate hok _ _ _ =>
    by_cases hiq : i = q
    · subst hiq
      refine .same ?_ (hst hsp)
      rw [hwrote _ hwr]
      change (allocproc s.nextpid tf pt (s.proc i)).1.state = _
      rw [allocproc_state, hok, hstate]
      rfl
    · exact hsame _ _ hwr hsp hiq
  | @inherit np p' _ _ _ _ _ _ =>
    by_cases hiq : np = q
    · subst hiq
      exact .same (by rw [hwrote _ hwr]; rfl) (hst hsp)
    · exact hsame _ _ hwr hsp hiq
  | @forkFail p' np _ _ _ hk =>
    by_cases hiq : np = q
    · subst hiq
      have hu := hi.forkUsed p np (by rw [hk]; exact List.mem_cons_self)
      exact .dropped hu (by rw [hwrote _ hwr]; rfl) (hst hsp) (by rw [thread_stack_self, hk])
    · exact hsame _ _ hwr hsp hiq
  | @setParent np p' _ _ _ _ _ =>
    by_cases hiq : np = q
    · subst hiq
      exact .same (by rw [hwrote _ hwr]; rfl) (hst hsp)
    · exact hsame _ _ hwr hsp hiq
  | @publish p' np _ _ _ hk =>
    by_cases hiq : np = q
    · subst hiq
      have hu := hi.forkUsed p np (by rw [hk]; exact List.mem_cons_self)
      exact .published hu (by rw [hwrote _ hwr]; rfl) (hst hsp) (by rw [thread_stack_self, hk])
    · exact hsame _ _ hwr hsp hiq
  | @reparent p' pp _ _ _ _ _ =>
    by_cases hiq : pp = q
    · subst hiq
      exact .same (by rw [hwrote _ hwr]; rfl) (hst hsp)
    · exact hsame _ _ hwr hsp hiq
  | @reap p' pp _ hstate hl _ _ _ =>
    by_cases hiq : pp = q
    · subst hiq
      refine .reaped hstate (by rw [hwrote _ hwr]; rfl) (hst hsp) ?_
      exact hi.other_of_lock hloc hq hl (by rw [hstate]; simp)
    · exact hsame _ _ hwr hsp hiq

/-- The thread's own slot after its step. -/
theorem Inv.own_slot (hi : Inv s) (hloc : (s.cpu c).loc = .switched p) (hs : .sched ∉ s.stack p)
    (hw : Wrote s (some p) (s.stack p) st' e.write e.spawn) :
    SlotInv ((s.apply c e).move c (.thread p st')) p := by
  have hrun := hi.running hloc hs
  have hproc : ((s.apply c e).move c (.thread p st')).proc = (s.apply c e).proc := move_proc _ _ _
  have hlocs : ∀ d, (((s.apply c e).move c (.thread p st')).cpu d).loc = (s.cpu d).loc :=
    thread_loc
  have hone : ∀ d, (((s.apply c e).move c (.thread p st')).cpu d).loc.proc = some p → d = c := by
    intro d hd
    rw [hlocs] at hd
    exact hi.one d c p hd (by rw [hloc]; rfl)
  have hat : (((s.apply c e).move c (.thread p st')).cpu c).loc = .switched p := by
    rw [hlocs, hloc]
  -- in the cases where the thread stays, it is still running
  have hstay : .sched ∉ st' → (((s.apply c e).move c (.thread p st')).proc p).state = .running →
      SlotInv ((s.apply c e).move c (.thread p st')) p := fun h1 h2 =>
    SlotInv.of_switched hat hone (Or.inl ⟨by rwa [thread_stack_self], h2⟩)
  have hother : ∀ i op, e.write = some (i, op) → i ≠ p →
      (((s.apply c e).move c (.thread p st')).proc p).state = .running := by
    intro i op hwr hip
    rw [hproc, apply_proc_some _ _ _ hwr, update_of_ne (Ne.symm hip), hrun]
  have hkept : ∀ op, e.write = some (p, op) → (op.apply (s.proc p)).state = (s.proc p).state →
      (((s.apply c e).move c (.thread p st')).proc p).state = .running := by
    intro op hwr hop
    rw [hproc, apply_proc_some _ _ _ hwr, update_self, hop, hrun]
  have hused : ∀ np, np ∈ children (s.stack p) → np ≠ p := by
    rintro np hnp rfl
    have := hi.forkUsed np np hnp
    rw [hrun] at this
    cases this
  generalize hwr : e.write = w at hw
  generalize hsp : e.spawn = sp at hw
  cases hw with
  | nothing hs' _ => exact hstay hs' (by rw [hproc, apply_proc_none _ _ _ hwr, hrun])
  | @leave p' op r hme hop hst hs' hl _ =>
    obtain rfl := Option.some.inj hme
    have hrest : Resting (((s.apply c e).move c (.thread p st')).proc p).state := by
      rw [hproc, apply_proc_some _ _ _ hwr, update_self]
      exact hop.resting
    refine SlotInv.of_switched hat hone (Or.inr ⟨?_, hrest, ?_⟩)
    · rw [thread_stack_self]
      exact ⟨r, Or.inl hst, hs'⟩
    · rw [thread_stack_self]
      exact hl
  | self hme hop hs' _ =>
    obtain rfl := Option.some.inj hme
    exact hstay hs' (hkept _ hwr (hop.state _))
  | @scan j i op hop hl hs' _ =>
    refine hstay hs' ?_
    by_cases hip : i = p
    · subst hip
      refine hkept _ hwr (hop.state.resolve_right fun h => ?_)
      rw [hrun] at h
      cases h.1
    · exact hother _ _ hwr hip
  | @alloc p' i tf pt _ hstate _ _ hs' _ =>
    refine hstay hs' (hother _ _ hwr ?_)
    rintro rfl
    rw [hrun] at hstate
    cases hstate
  | @allocFail p' i tf pt _ hstate _ _ hs' _ =>
    refine hstay hs' (hother _ _ hwr ?_)
    rintro rfl
    rw [hrun] at hstate
    cases hstate
  | inherit _ hnp _ hs' _ => exact hstay hs' (hother _ _ hwr (hused _ hnp))
  | forkFail _ _ hs' hk =>
    exact hstay hs' (hother _ _ hwr (hused _ (by rw [hk]; exact List.mem_cons_self)))
  | setParent _ hnp _ hs' _ => exact hstay hs' (hother _ _ hwr (hused _ hnp))
  | publish _ _ hs' hk =>
    exact hstay hs' (hother _ _ hwr (hused _ (by rw [hk]; exact List.mem_cons_self)))
  | @reparent p' pp _ _ _ hs' _ =>
    refine hstay hs' ?_
    by_cases hip : pp = p
    · subst hip
      exact hkept _ hwr rfl
    · exact hother _ _ hwr hip
  | @reap p' pp _ hstate _ _ hs' _ =>
    refine hstay hs' (hother _ _ hwr ?_)
    rintro rfl
    rw [hrun] at hstate
    cases hstate

/-- The children being built after a step of `p`'s thread. -/
theorem children_step (hw : Wrote s (some p) (s.stack p) st' e.write e.spawn)
    (hnp : np ∈ children (((s.apply c e).move c (.thread p st')).stack q)) :
    (np ∈ children (s.stack q) ∧ (q = p → np ∈ children st')) ∨ (q = p ∧ e.spawn = some np) := by
  by_cases hq : q = p
  · subst hq
    rw [thread_stack_self] at hnp
    generalize e.write = w at hw
    generalize e.spawn = sp at hw ⊢
    cases hw with
    | @alloc p' i tf pt _ _ _ _ _ hk =>
      rw [hk] at hnp
      rcases List.mem_cons.mp hnp with rfl | hm
      · exact Or.inr ⟨rfl, rfl⟩
      · exact Or.inl ⟨hm, fun _ => by rw [hk]; exact List.mem_cons_of_mem _ hm⟩
    | forkFail _ _ _ hk => exact Or.inl ⟨by rw [hk]; exact List.mem_cons_of_mem _ hnp, fun _ => hnp⟩
    | publish _ _ _ hk => exact Or.inl ⟨by rw [hk]; exact List.mem_cons_of_mem _ hnp, fun _ => hnp⟩
    | nothing _ hk => exact Or.inl ⟨hk ▸ hnp, fun _ => hnp⟩
    | leave _ _ _ _ _ hk => exact Or.inl ⟨hk ▸ hnp, fun _ => hnp⟩
    | self _ _ _ hk => exact Or.inl ⟨hk ▸ hnp, fun _ => hnp⟩
    | scan _ _ _ hk => exact Or.inl ⟨hk ▸ hnp, fun _ => hnp⟩
    | allocFail _ _ _ _ _ hk => exact Or.inl ⟨hk ▸ hnp, fun _ => hnp⟩
    | inherit _ _ _ _ hk => exact Or.inl ⟨hk ▸ hnp, fun _ => hnp⟩
    | setParent _ _ _ _ hk => exact Or.inl ⟨hk ▸ hnp, fun _ => hnp⟩
    | reparent _ _ _ _ hk => exact Or.inl ⟨hk ▸ hnp, fun _ => hnp⟩
    | reap _ _ _ _ _ hk => exact Or.inl ⟨hk ▸ hnp, fun _ => hnp⟩
  · refine Or.inl ⟨?_, fun h => absurd h hq⟩
    rw [thread_stack_ne hq] at hnp
    cases hsp : e.spawn with
    | none => rwa [apply_stack_none _ _ _ hsp] at hnp
    | some i =>
      rw [apply_stack_some _ _ _ hsp] at hnp
      by_cases hqi : q = i
      · subst hqi
        rw [update_self] at hnp
        simp [Frame.child] at hnp
      · rwa [update_of_ne hqi] at hnp

theorem spawn_state (hw : Wrote s (some p) (s.stack p) st' e.write e.spawn) (h : e.spawn = some np) :
    (s.proc np).state = .unused := by
  generalize e.write = w at hw
  rw [h] at hw
  cases hw with
  | alloc _ hstate _ _ _ _ => exact hstate

theorem Inv.forkUsed_step (hi : Inv s) (hloc : (s.cpu c).loc = .switched p) (hs : .sched ∉ s.stack p)
    (hw : Wrote s (some p) (s.stack p) st' e.write e.spawn)
    (hnp : np ∈ children (((s.apply c e).move c (.thread p st')).stack q)) :
    (((s.apply c e).move c (.thread p st')).proc np).state = .used := by
  have hrun := hi.running hloc hs
  rcases children_step hw hnp with ⟨hm, hm'⟩ | ⟨-, hsp⟩
  · have hu := hi.forkUsed q np hm
    have hne : np ≠ p := by
      rintro rfl
      rw [hrun] at hu
      cases hu
    -- `np` is still among the children, so this step does not end its construction
    have hkeep : children (s.stack p) ≠
        np :: children (((s.apply c e).move c (.thread p st')).stack p) := by
      intro hk
      have hqp : q = p := hi.forkOne q p np hm (by rw [hk]; exact List.mem_cons_self)
      have hnd := hi.forkNodup p
      rw [hk, thread_stack_self] at hnd
      exact (List.nodup_cons.mp hnd).1 (hm' hqp)
    cases hi.touched hloc hs hw hne with
    | same hstate _ => rw [hstate, hu]
    | woken h _ _ _ => rw [hu] at h; cases h
    | born h _ _ => rw [hu] at h; cases h
    | dropped _ _ _ hk => exact absurd hk hkeep
    | published _ _ _ hk => exact absurd hk hkeep
    | reaped h _ _ _ => rw [hu] at h; cases h
  · have hun := spawn_state hw hsp
    have hne : np ≠ p := by
      rintro rfl
      rw [hrun] at hun
      cases hun
    generalize hwr : e.write = w at hw
    rw [hsp] at hw
    cases hw with
    | @alloc p' i tf pt _ _ hok _ _ _ =>
      rw [move_proc, apply_proc_some _ _ _ hwr, update_self]
      change (allocproc s.nextpid tf pt (s.proc np)).1.state = .used
      rw [allocproc_state, hok]
      rfl

theorem Inv.forkOne_step (hi : Inv s) (hw : Wrote s (some p) (s.stack p) st' e.write e.spawn) {q' : Slot}
    (h : np ∈ children (((s.apply c e).move c (.thread p st')).stack q))
    (h' : np ∈ children (((s.apply c e).move c (.thread p st')).stack q')) : q = q' := by
  have hnew : ∀ r, np ∈ children (s.stack r) → e.spawn ≠ some np := by
    intro r hr hsp
    have h1 := hi.forkUsed r np hr
    rw [spawn_state hw hsp] at h1
    cases h1
  rcases children_step hw h with ⟨hm, -⟩ | ⟨hq, hsp⟩
  · rcases children_step hw h' with ⟨hm', -⟩ | ⟨-, hsp⟩
    · exact hi.forkOne q q' np hm hm'
    · exact absurd hsp (hnew q hm)
  · rcases children_step hw h' with ⟨hm', -⟩ | ⟨hq', -⟩
    · exact absurd hsp (hnew q' hm')
    · rw [hq, hq']

theorem Inv.forkNodup_step (hi : Inv s) (hw : Wrote s (some p) (s.stack p) st' e.write e.spawn)
    (q : Slot) : (children (((s.apply c e).move c (.thread p st')).stack q)).Nodup := by
  by_cases hq : q = p
  · subst hq
    rw [thread_stack_self]
    have hnd := hi.forkNodup q
    generalize e.write = w at hw
    generalize e.spawn = sp at hw
    cases hw with
    | @alloc p' i tf pt _ hstate _ _ _ hk =>
      rw [hk]
      refine List.nodup_cons.mpr ⟨fun hm => ?_, hnd⟩
      have := hi.forkUsed q i hm
      rw [hstate] at this
      cases this
    | forkFail _ _ _ hk =>
      rw [hk] at hnd
      exact (List.nodup_cons.mp hnd).2
    | publish _ _ _ hk =>
      rw [hk] at hnd
      exact (List.nodup_cons.mp hnd).2
    | nothing _ hk => rwa [hk]
    | leave _ _ _ _ _ hk => rwa [hk]
    | self _ _ _ hk => rwa [hk]
    | scan _ _ _ hk => rwa [hk]
    | allocFail _ _ _ _ _ hk => rwa [hk]
    | inherit _ _ _ _ hk => rwa [hk]
    | setParent _ _ _ _ hk => rwa [hk]
    | reparent _ _ _ _ hk => rwa [hk]
    | reap _ _ _ _ _ hk => rwa [hk]
  · rw [thread_stack_ne hq]
    cases hsp : e.spawn with
    | none =>
      rw [apply_stack_none _ _ _ hsp]
      exact hi.forkNodup q
    | some i =>
      rw [apply_stack_some _ _ _ hsp]
      by_cases hqi : q = i
      · subst hqi
        rw [update_self]
        exact List.nodup_nil
      · rw [update_of_ne hqi]
        exact hi.forkNodup q

theorem spawn_stack_ne (hq : q ≠ p) (hsp : e.spawn ≠ some q) :
    ((s.apply c e).move c (.thread p st')).stack q = s.stack q := by
  rw [thread_stack_ne hq]
  cases h : e.spawn with
  | none => rw [apply_stack_none _ _ _ h]
  | some i =>
    rw [apply_stack_some _ _ _ h, update_of_ne]
    rintro rfl
    exact hsp h

/-- What a step of `p`'s thread has to establish; the CPUs stay where they are. -/
theorem Inv.step_stack (hi : Inv s) (hloc : (s.cpu c).loc = .switched p)
    (hlock : LockStep s (some p) (s.stack p) e st')
    (hspawn : ∀ q, e.spawn = some q → (s.proc q).state = .unused)
    (hslot : ∀ q, SlotInv ((s.apply c e).move c (.thread p st')) q)
    (hforkUsed : ∀ q np, np ∈ children (((s.apply c e).move c (.thread p st')).stack q) →
      (((s.apply c e).move c (.thread p st')).proc np).state = .used)
    (hforkOne : ∀ q q' np, np ∈ children (((s.apply c e).move c (.thread p st')).stack q) →
      np ∈ children (((s.apply c e).move c (.thread p st')).stack q') → q = q')
    (hforkNodup : ∀ q, (children (((s.apply c e).move c (.thread p st')).stack q)).Nodup) :
    Inv ((s.apply c e).move c (.thread p st')) := by
  have hcpu : ((s.apply c e).move c (.thread p st')).cpu c =
      { s.cpu c with noff := (s.cpu c).noff + e.acquire.toList.length - e.release.length } := by
    rw [thread_cpu, if_pos rfl]
  refine hi.step_of ?_ hlock.free ?_ ?_ ?_ ?_ ?_ ?_ ?_ hslot hforkUsed hforkOne hforkNodup
  · rw [held_switched hloc, held_switched (by rw [thread_loc, hloc]), thread_stack_self]
    exact hlock.perm
  · intro d hd q hq
    refine spawn_stack_ne ?_ fun hsp => ?_
    · rintro rfl
      exact hd (hi.one d c q (by rw [hq]; rfl) (by rw [hloc]; rfl))
    · refine hi.idle_of_state (Or.inl (hspawn q hsp)) d ?_
      rw [hq]
      rfl
  · intro q
    by_cases hq : q = p
    · rw [hq, thread_stack_self]
      exact hlock.wants
    · by_cases hsp : e.spawn = some q
      · rw [thread_stack_ne hq, apply_stack_some _ _ _ hsp, update_self]
        trivial
      · rw [spawn_stack_ne hq hsp]
        exact hi.wants q
  · rw [hcpu]
    exact hi.irqWants c
  · rw [hcpu]
    exact hi.irqSched c
  · rw [hcpu]
    exact hi.irqTop c
  · rw [hcpu]
    exact hi.cpuProc c
  · intro d hd q h h'
    rw [thread_loc] at h
    exact hd (hi.one d c q h' h)

/-- **A step of a process's thread keeps the invariant.** -/
theorem Inv.step_thread (hi : Inv s) (hloc : (s.cpu c).loc = .switched p) (hs : .sched ∉ s.stack p)
    (hlock : LockStep s (some p) (s.stack p) e st')
    (hw : Wrote s (some p) (s.stack p) st' e.write e.spawn) :
    Inv ((s.apply c e).move c (.thread p st')) := by
  refine hi.step_stack hloc hlock (fun q => spawn_state hw) (fun q => ?_)
    (fun q np => hi.forkUsed_step hloc hs hw) (fun q q' np => hi.forkOne_step hw)
    (hi.forkNodup_step hw)
  by_cases hq : q = p
  · rw [hq]
    exact hi.own_slot hloc hs hw
  · exact (hi.touched hloc hs hw hq).slotInv hi thread_loc

/-- `sched()` panics. -/
theorem Inv.step_schedPanic {st : List Frame} (hi : Inv s) (hloc : (s.cpu c).loc = .switched p)
    (hst : s.stack p = .sched :: st) :
    Inv ((s.apply c {}).move c (.thread p (.panic :: .sched :: st))) := by
  have hwants := hi.wants p
  rw [hst] at hwants
  have hkids : ∀ q, children (((s.apply c {}).move c (.thread p (.panic :: .sched :: st))).stack q) =
      children (s.stack q) := by
    intro q
    by_cases hq : q = p
    · rw [hq, thread_stack_self, hst]
      simp [Frame.child]
    · exact congrArg children (spawn_stack_ne hq (by simp))
  refine hi.step_stack hloc ⟨?_, hwants, by simp⟩ (by simp) ?_ ?_ ?_ ?_
  · rw [hst]
    exact List.Perm.refl _
  · intro q
    by_cases hq : q = p
    · subst hq
      rcases (hi.slot q).switched c hloc with ⟨h, -⟩ | ⟨⟨r, hr, hnr⟩, hrest, hl⟩
      · rw [hst] at h
        simp at h
      · rw [hst] at hr hl
        refine SlotInv.of_switched (c := c) (by rw [thread_loc, hloc]) (fun d hd => ?_)
          (Or.inr ⟨⟨r, ?_, hnr⟩, hrest, ?_⟩)
        · rw [thread_loc] at hd
          exact hi.one d c q hd (by rw [hloc]; rfl)
        · rw [thread_stack_self]
          rcases hr with hr | hr
          · cases hr
            exact Or.inr rfl
          · cases hr
        · rw [thread_stack_self]
          exact hl
    · exact (hi.slot q).congr rfl (spawn_stack_ne hq (by simp)) (fun d => by rw [thread_loc])
        (fun d => by rw [thread_loc])
  · intro q np hnp
    rw [hkids] at hnp
    exact hi.forkUsed q np hnp
  · intro q q' np h h'
    rw [hkids] at h h'
    exact hi.forkOne q q' np h h'
  · intro q
    rw [hkids]
    exact hi.forkNodup q

end Thread

end Xv6
