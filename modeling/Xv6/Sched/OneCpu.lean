import Xv6.Sched.Pass

/-!
# At most one CPU executes a process

What the hand-over invariant says once `p->lock` is free: `c->proc` and `p->state` agree, and the kernel
stack of a process that `kwait()` finds ZOMBIE is in nobody's use any more.

* `Inv.running_iff` : a process is RUNNING if and only if a CPU executes it, while its lock is free;
* `Inv.idle_of_reap` : when `kwait()` frees a slot, no CPU is in the slot's thread or on its way back.
-/

namespace Xv6

variable {n : Nat} {s : State n} {c : Fin n} {p : Slot}

/-- With `p->lock` free, a CPU that has switched to `p` is executing it. -/
theorem Inv.running_of_free (hi : Inv s) (hfree : s.lock (.proc p) = none)
    (hc : (s.cpu c).loc.proc = some p) : (s.proc p).state = .running := by
  have hnot : .proc p ∉ s.held c := hi.owned.not_mem_of_free hfree c
  rcases SchedLoc.proc_eq_some.mp hc with hc | hc
  · rw [held_switched hc] at hnot
    rcases (hi.slot p).switched c hc with ⟨-, hr⟩ | ⟨-, -, hl⟩
    · exact hr
    · exact absurd hl hnot
  · rw [held_back hc] at hnot
    exact absurd (List.mem_singleton_self _) hnot

/-- A RUNNING process is on some CPU. -/
theorem Inv.on_cpu_of_running (hi : Inv s) (h : (s.proc p).state = .running) :
    ∃ c, (s.cpu c).loc.proc = some p := by
  by_contra hno
  exact ((hi.slot p).idle fun c hc => hno ⟨c, hc⟩).1 h

theorem Inv.running_iff (hi : Inv s) (hfree : s.lock (.proc p) = none) :
    (s.proc p).state = .running ↔ ∃! c, (s.cpu c).proc = some p := by
  constructor
  · intro h
    obtain ⟨c, hc⟩ := hi.on_cpu_of_running h
    refine ⟨c, (hi.cpuProc c).trans hc, fun d hd => ?_⟩
    exact hi.one d c p ((hi.cpuProc d).symm.trans hd) hc
  · rintro ⟨c, hc, -⟩
    exact hi.running_of_free hfree ((hi.cpuProc c).symm.trans hc)

/-- `kwait()` looks at a ZOMBIE child: the child's CPU has switched away and released its lock. -/
theorem Inv.idle_of_waitChild {q : Slot} {addr : Nat} {st : List Frame} (hi : Inv s)
    (hloc : (s.cpu c).loc = .switched q) (hst : s.stack q = .waitChild addr p :: st)
    (hz : (s.proc p).state = .zombie) (d : Fin n) : (s.cpu d).loc.proc ≠ some p := by
  have hl : .proc p ∈ locksOf (some q) (s.stack q) := by
    rw [hst]
    simp [locksOf, Frame.locks]
  refine hi.other_of_lock hloc ?_ hl (by rw [hz]; simp) d
  rintro rfl
  rcases (hi.slot p).switched c hloc with ⟨-, hr⟩ | ⟨⟨r, hr, -⟩, -⟩
  · rw [hz] at hr
    cases hr
  · rw [hst] at hr
    simp at hr

theorem Inv.idle_of_reap {t : State n} {ch : Choice} (hi : Inv s) (h : Xv6.step s (c, ch) = some t)
    (hw : writeOf s (c, ch) = some (p, .reap)) :
    (s.proc p).state = .zombie ∧ s.lock (.proc p) = some c ∧ ∀ d, (s.cpu d).loc.proc ≠ some p := by
  rcases hi.table_step h with ⟨hno, -⟩ | ⟨i, op, hwr, htw, -⟩
  · rw [hno] at hw
    cases hw
  · rw [hwr] at hw
    cases hw
    cases htw with
    | @reap q _ hloc hrun hz hl _ =>
      refine ⟨hz, (hi.owned.iff_mem _ _).mpr hl, ?_⟩
      rw [held_switched hloc] at hl
      refine hi.other_of_lock hloc ?_ hl (by rw [hz]; simp)
      rintro rfl
      rw [hrun] at hz
      cases hz
    | leave _ _ hop => cases hop
    | self _ _ hop => cases hop
    | scan hop => cases hop

/-- **At most one CPU executes a process.** While `p->lock` is free, `p` is RUNNING if and only if it is
`c->proc` of exactly one CPU, and it is never that of two. A ZOMBIE that `kwait()` looks at, and a slot
that it frees, is on no CPU: the CPU that executed it has switched away from its stack and released its
lock. -/
theorem one_cpu (hs : Reachable s) :
    (∀ p, s.lock (.proc p) = none → ((s.proc p).state = .running ↔ ∃! c, (s.cpu c).proc = some p)) ∧
    (∀ c d p, (s.cpu c).proc = some p → (s.cpu d).proc = some p → c = d) ∧
    (∀ c q addr p st, (s.cpu c).loc = .switched q → s.stack q = .waitChild addr p :: st →
      (s.proc p).state = .zombie → ∀ d, (s.cpu d).loc ≠ .switched p ∧ (s.cpu d).loc ≠ .back p) ∧
    (∀ c ch t p, step s (c, ch) = some t → writeOf s (c, ch) = some (p, .reap) →
      (s.proc p).state = .zombie ∧ s.lock (.proc p) = some c ∧
        ∀ d, (s.cpu d).loc ≠ .switched p ∧ (s.cpu d).loc ≠ .back p) := by
  have hi := inv_of_reachable hs
  have hoff : ∀ {p : Slot} {d : Fin n}, (s.cpu d).loc.proc ≠ some p →
      (s.cpu d).loc ≠ .switched p ∧ (s.cpu d).loc ≠ .back p := by
    intro p d h
    rw [Ne, SchedLoc.proc_eq_some, not_or] at h
    exact h
  refine ⟨fun p => hi.running_iff, ?_, ?_, ?_⟩
  · intro c d p hc hd
    rw [hi.cpuProc] at hc hd
    exact hi.one c d p hc hd
  · intro c q addr p st hloc hst hz d
    exact hoff (hi.idle_of_waitChild hloc hst hz d)
  · intro c ch t p h hw
    obtain ⟨hz, hl, hidle⟩ := hi.idle_of_reap h hw
    exact ⟨hz, hl, fun d => hoff (hidle d)⟩

/-- Two CPUs at the head of their loops; the first process waits. -/
def bootedPair : State 2 := Automaton.runD step (State.init 2) [(0, .alloc 1 1), (0, .run), (1, .run)]

/-- The process has had a time slice on CPU 0. -/
def yieldedPair : State 2 :=
  Automaton.runD step (bootedPair.dispatched 0 0 (afterPass bootedPair.proc 0)) ([(0, .run)] ++ timeSlice 0)

/-- CPU 1 has taken it over and released its lock. -/
def handedOver : State 2 :=
  Automaton.runD step (yieldedPair.dispatched 1 0 (afterPass yieldedPair.proc 0)) [(1, .run)]

theorem one_cpu_handedOver : (handedOver.proc 0).state = .running ∧ (handedOver.cpu 1).proc = some 0 ∧
    (∃! c, (handedOver.cpu c).proc = some 0) ∧ (handedOver.cpu 0).proc ≠ some 0 := by
  have hbooted : Reachable bootedPair := ⟨_, Automaton.run_eq_runD (by decide)⟩
  have hyielded : Reachable yieldedPair :=
    (Ready.reachable (by decide) (by decide) hbooted).trans (Automaton.run_eq_runD (by decide))
  have hover : Reachable handedOver :=
    (Ready.reachable (by decide) (by decide) hyielded).trans (Automaton.run_eq_runD (by decide))
  obtain ⟨hrunning, hone, -⟩ := one_cpu hover
  exact ⟨by decide, by decide, (hrunning 0 (by decide)).mp (by decide), fun h => by cases hone 0 1 0 h (by decide)⟩

end Xv6
