import Xv6.Proc.Stack

/-!
# Parents and children

`wait_lock` guards the `parent` links and the moment a process becomes ZOMBIE. The threads in `kfork()`, `kexit()`
and `kwait()` rely on what they have read under it.

* `Op.kin` : the writes to a `parent` link or to ZOMBIE; only the holder of `wait_lock` makes them;
* `Frame.Knows init P q` : what a frame of process `q` has established about the table `P`;
* `Family s` : parents are alive, published processes have one, and every frame is right in what it knows;
* `family_of_reachable` : this holds in every reachable state.
-/

namespace Xv6
open Function

variable {n : Nat}

def Op.kin : Op → Bool
  | .setParent _ | .reparent _ | .kexit _ | .reap => true
  | _ => false

/-- `P` and `P'` have the same parent links and the same ZOMBIE slots. -/
def SameKin (P P' : Slot → Proc) : Prop :=
  ∀ j, (P' j).parent = (P j).parent ∧ ((P' j).state = .zombie ↔ (P j).state = .zombie)

/-- The process of the slot can run, now or later. -/
def Live (x : ProcState) : Prop := x = .sleeping ∨ x = .runnable ∨ x = .running

def Frame.Knows (init : Option Slot) (P : Slot → Proc) (q : Slot) : Frame → Prop
  | .forkPublish np _ => (P np).parent = some q
  | .reparent _ i => init ≠ some q ∧ ∀ j < i, (P j).parent ≠ some q
  | .exitWakeup _ | .exitZombie _ => init ≠ some q ∧ ∀ j, (P j).parent ≠ some q
  | .waitScan _ i _ => ∀ j < i, (P j).parent = some q → (P j).state ≠ .zombie
  | .waitChild _ i => (P i).parent = some q ∧ ∀ j < i, (P j).parent = some q → (P j).state ≠ .zombie
  | .waitKilled _ | .waitRelease _ => ∀ j, (P j).parent = some q → (P j).state ≠ .zombie
  | _ => True

/-- Every frame of the stack of `q` is right in what it knows. -/
def Known (init : Option Slot) (P : Slot → Proc) (q : Slot) (st : List Frame) : Prop :=
  ∀ f ∈ st, f.Knows init P q

/-- The frame is inside a section of `wait_lock`. -/
def Frame.Waits (q : Slot) (f : Frame) : Prop := .wait ∈ f.locks (some q) ∧ f.enters (some q) ≠ some .wait

structure Family (s : State n) : Prop where
  boot : s.initproc = none → (∀ c, (s.cpu c).loc = .boot) ∧ ∀ p, (s.proc p).state = .unused ∧ s.stack p = []
  init : ∀ i, s.initproc = some i → Live (s.proc i).state
  live : ∀ p q, (s.proc p).parent = some q → Live (s.proc q).state
  published : ∀ p, (s.proc p).state ≠ .unused → (∀ q, p ∉ children (s.stack q)) → s.initproc ≠ some p →
    (s.proc p).parent ≠ none
  known : ∀ q, Known s.initproc s.proc q (s.stack q)

/-! ## Which writes change the family -/

theorem TableWrite.kin {s : State n} {c : Fin n} {i : Slot} {op : Op} (h : TableWrite s c i op)
    (hop : op.kin = false) : (op.apply (s.proc i)).parent = (s.proc i).parent ∧
      ((op.apply (s.proc i)).state = .zombie ↔ (s.proc i).state = .zombie) := by
  refine ⟨?_, ?_⟩
  · rcases op.apply_parent (s.proc i) with h | ⟨q, rfl⟩ | ⟨q, rfl⟩ | rfl
    · exact h
    · cases hop
    · cases hop
    · cases hop
  · cases h with
    | visit => rw [Op.apply, schedulerVisit_state]
    | dispatch _ _ hs => simp [Op.apply, schedulerDispatch, hs]
    | userinit _ hs => simp [Op.apply, hs]
    | leave _ hs hop' => cases hop' <;> simp_all [Op.apply, Op.kin]
    | self _ _ hop' => cases hop' <;> rfl
    | scan hop' =>
      rcases hop'.state with h | ⟨h1, h2⟩
      · rw [h]
      · simp [h1, h2]
    | allocproc hs =>
      rw [Op.apply, allocproc_state, hs]
      split <;> simp
    | inherit => rfl
    | forkfail hs => simp [Op.apply, freeproc, hs]
    | setParent => cases hop
    | publish hs => simp [Op.apply, hs]
    | reparent => cases hop
    | reap => cases hop

section Step
variable {s t : State n} {c : Fin n} {ch : Choice}

/-- A step leaves the family as it is, or makes one of the four writes. -/
theorem Inv.kin_step (hi : Inv s) (h : Xv6.step s (c, ch) = some t) :
    (SameKin s.proc t.proc ∧ ∀ i op, writeOf s (c, ch) = some (i, op) → op.kin = false) ∨
      ∃ i op, op.kin = true ∧ writeOf s (c, ch) = some (i, op) := by
  rcases hi.table_step h with ⟨hno, htab⟩ | ⟨i, op, hw, htw, htab⟩
  · exact Or.inl ⟨fun j => by simp [htab], fun i op hw => by cases hno.symm.trans hw⟩
  · cases hop : op.kin with
    | true => exact Or.inr ⟨i, op, hop, hw⟩
    | false =>
      refine Or.inl ⟨fun j => ?_, fun i' op' hw' => by cases hw.symm.trans hw'; exact hop⟩
      rw [htab]
      by_cases hj : j = i
      · subst hj
        rw [update_self]
        exact htw.kin hop
      · simp [update_of_ne hj]

/-- Only the holder of `wait_lock` makes one of the four writes, on behalf of a process. -/
theorem wait_of_kin (hs : Reachable s) (h : Xv6.step s (c, ch) = some t) {i : Slot} {op : Op}
    (hw : writeOf s (c, ch) = some (i, op)) (hop : op.kin = true) :
    ∃ p f, s.me c = some p ∧ s.stack p = [f] ∧ f.Writes (some p) i op ∧ .wait ∈ s.held c := by
  rcases (inv_of_reachable hs).writer h hw with hno | ⟨f, r, hcode, hf⟩
  · rcases hno with rfl | rfl | ⟨_, _, _, rfl⟩ | ⟨_, _, rfl⟩ <;> cases hop
  · have hbelow : f.Below (s.me c) r := by
      have hok := (stackOk_of_reachable hs).code c
      rw [hcode] at hok
      exact hok.1
    have hheld : ∀ l, l ∈ f.locks (s.me c) → (∀ l', f ≠ .want l') → l ∈ s.held c := by
      intro l hl hne
      refine mem_held_of_code ?_
      rw [hcode, locksOf_cons hne]
      exact List.mem_append_left _ hl
    cases hf with
    | setParent hme =>
      obtain rfl : r = [] := hbelow rfl
      exact ⟨_, _, hme, (stack_of_me hme).trans hcode, .setParent rfl, hheld _ (by simp [Frame.locks]) (by simp)⟩
    | reparent hme =>
      obtain rfl : r = [] := hbelow rfl
      exact ⟨_, _, hme, (stack_of_me hme).trans hcode, .reparent rfl, hheld _ (by simp [Frame.locks]) (by simp)⟩
    | kexit hme =>
      obtain rfl : r = [] := hbelow rfl
      exact ⟨_, _, hme, (stack_of_me hme).trans hcode, .kexit rfl, hheld _ (by simp [Frame.locks]) (by simp)⟩
    | reap hme =>
      obtain rfl : r = [] := hbelow rfl
      exact ⟨_, _, hme, (stack_of_me hme).trans hcode, .reap rfl, hheld _ (by simp [Frame.locks]) (by simp)⟩
    | _ => cases hop

end Step

theorem Frame.Knows.congr {init : Option Slot} {P P' : Slot → Proc} {q : Slot} {f : Frame}
    (h : f.Knows init P q) (hk : SameKin P P') : f.Knows init P' q := by
  cases f
  case forkPublish np _ => exact (hk np).1.trans h
  case reparent _ i => exact ⟨h.1, fun j hj => (hk j).1 ▸ h.2 j hj⟩
  case exitWakeup => exact ⟨h.1, fun j => (hk j).1 ▸ h.2 j⟩
  case exitZombie => exact ⟨h.1, fun j => (hk j).1 ▸ h.2 j⟩
  case waitScan _ i _ => exact fun j hj hp hz => h j hj ((hk j).1 ▸ hp) ((hk j).2.mp hz)
  case waitChild _ i =>
    exact ⟨(hk i).1.trans h.1, fun j hj hp hz => h.2 j hj ((hk j).1 ▸ hp) ((hk j).2.mp hz)⟩
  case waitKilled => exact fun j hp hz => h j ((hk j).1 ▸ hp) ((hk j).2.mp hz)
  case waitRelease => exact fun j hp hz => h j ((hk j).1 ▸ hp) ((hk j).2.mp hz)
  all_goals trivial

/-! ## What the frames know -/

section Knows
variable {init : Option Slot} {P : Slot → Proc} {q : Slot} {st : List Frame} {i : Slot}

@[simp] theorem known_nil : Known init P q [] := fun _ h => absurd h List.not_mem_nil

@[simp] theorem known_cons (f : Frame) : Known init P q (f :: st) ↔ f.Knows init P q ∧ Known init P q st :=
  List.forall_mem_cons

@[simp] theorem known_scanFrom (j : Job) : Known init P q (scanFrom j st) ↔ Known init P q st := by
  simp [scanFrom, Frame.Knows]

@[simp] theorem known_scanNext (j : Job) (i : Slot) : Known init P q (scanNext j i st) ↔ Known init P q st := by
  unfold scanNext
  split
  · simp [Frame.Knows]
  · cases j <;> simp [Frame.Knows]

theorem lt_succ_cases {j : Slot} {h : i.val + 1 < nproc} (hj : j < ⟨i.val + 1, h⟩) : j < i ∨ j = i := by
  rcases Nat.lt_succ_iff_lt_or_eq.mp (Fin.lt_def.mp hj) with h | h
  · exact Or.inl h
  · exact Or.inr (Fin.ext h)

theorem lt_last_cases (h : ¬ i.val + 1 < nproc) (j : Slot) : j < i ∨ j = i := by
  rcases Nat.lt_or_eq_of_le (show j.val ≤ i.val by omega) with h | h
  · exact Or.inl h
  · exact Or.inr (Fin.ext h)

theorem known_reparentNext {status : Int} (h : (Frame.reparent status i).Knows init P q) (hi : (P i).parent ≠ some q) :
    Known init P q (reparentNext status i []) := by
  have hle : ∀ j, j < i ∨ j = i → (P j).parent ≠ some q := by
    rintro j (hj | rfl)
    · exact h.2 j hj
    · exact hi
  unfold reparentNext
  split
  · simpa [Frame.Knows] using ⟨h.1, fun j hj => hle j (lt_succ_cases hj)⟩
  · rename_i hlast
    simpa [Frame.Knows] using ⟨h.1, fun j => hle j (lt_last_cases hlast j)⟩

theorem known_waitNext {p : Slot} {addr : Nat} {havekids : Bool}
    (h : ∀ j < i, (P j).parent = some q → (P j).state ≠ .zombie) (hi : (P i).parent = some q → (P i).state ≠ .zombie) :
    Known init P q (waitNext p addr i havekids []) := by
  have hle : ∀ j, j < i ∨ j = i → (P j).parent = some q → (P j).state ≠ .zombie := by
    rintro j (hj | rfl)
    · exact h j hj
    · exact hi
  unfold waitNext
  split
  · simpa [Frame.Knows] using fun j hj => hle j (lt_succ_cases hj)
  · rename_i hlast
    cases havekids
    · simp [Frame.Knows]
    · simpa [Frame.Knows] using fun j => hle j (lt_last_cases hlast j)

end Knows

section Exec
variable {s : State n} {c : Fin n} {p : Slot} {ch : Choice} {st st' : List Frame} {e : Effect}

theorem own_known {f : Frame} (hs : StackOk (some p) (f :: st)) (h : own s p ch st f = some (e, st'))
    (hk : Known s.initproc s.proc p (f :: st)) (hop : ∀ i op, e.write = some (i, op) → op.kin = false) :
    Known s.initproc s.proc p st' := by
  obtain ⟨hf, -⟩ := hs
  obtain ⟨hkf, hkst⟩ := (known_cons f).mp hk
  cases f
  all_goals simp only [own] at h
  all_goals repeat' (split at h)
  all_goals cases h
  all_goals simp only [Frame.Below, Frame.base, forall_const] at hf
  all_goals try subst hf
  case reparent.isTrue => cases hop _ _ rfl
  case reparent.isFalse hne => exact known_reparentNext hkf hne
  case exitWakeup => simpa [Frame.Knows] using hkf
  case waitScan.isFalse hne => exact known_waitNext hkf fun h => absurd h hne
  case waitScan.isTrue heq => simpa [Frame.Knows] using ⟨heq, hkf⟩
  case waitChild.isFalse hne => exact known_waitNext hkf.2 fun _ => hne
  case waitKilled.isFalse => simpa [Frame.Knows] using hkf
  case forkParent => cases hop _ _ rfl
  all_goals simp [Frame.Knows, hkst]

theorem exec_known (hs : StackOk (some p) st) (h : ExecCase s c (some p) ch st e st')
    (hk : Known s.initproc s.proc p st) (hop : ∀ i op, e.write = some (i, op) → op.kin = false) :
    Known s.initproc s.proc p st' := by
  cases h with
  | enter hme h =>
    obtain rfl := Option.some.inj hme
    cases ch
    all_goals simp only [enter] at h
    all_goals repeat' (split at h)
    all_goals cases h
    case enter.exit.isFalse.refl hne => simpa [Frame.Knows] using hne
    all_goals simp [Frame.Knows]
  | acquire hfree => exact ((known_cons _).mp hk).2
  | twice hheld => exact (known_cons _).mpr ⟨trivial, hk⟩
  | @visit j i st =>
    have hst := ((known_cons _).mp hk).2
    unfold visit
    dsimp only
    split
    · simp [Frame.Knows, hst]
    · simp [hst]
  | hold h =>
    have hst := ((known_cons _).mp hk).2
    cases ch
    all_goals simp only [hold] at h
    all_goals repeat' (split at h)
    all_goals cases h
    all_goals simp [Frame.Knows, hst]
  | own hme h =>
    obtain rfl := Option.some.inj hme
    exact own_known hs h hk hop

theorem interrupt_known {init : Option Slot} {P : Slot → Proc} (h : interrupt (some p) st ch = some st')
    (hk : Known init P p st) : Known init P p st' := by
  cases ch
  all_goals simp only [interrupt] at h
  all_goals cases h
  all_goals simp [Frame.Knows, hk]

end Exec

section Step
variable {s t : State n} {c : Fin n} {ch : Choice} {e : Effect} {p q i : Slot} {op : Op} {status : Int}

theorem StackStep.known (h : StackStep s t c ch e p) (hs : StackOk (some p) (s.stack p))
    (hk : Known s.initproc s.proc p (s.stack p)) (hop : ∀ i op, e.write = some (i, op) → op.kin = false) :
    Known s.initproc s.proc p (t.stack p) := by
  cases h with
  | same h => rwa [h]
  | born _ h => simp [h, Frame.Knows]
  | exec _ hx h => exact h ▸ exec_known hs hx hk hop
  | interrupt _ hx _ h =>
    rw [h]
    exact interrupt_known hx hk
  | panic _ hst _ h =>
    rw [h, ← hst]
    exact (known_cons _).mpr ⟨trivial, hk⟩
  | swtch _ hst _ h =>
    rw [hst] at hk
    rw [h]
    exact ((known_cons _).mp hk).2

/-! ## The states of a slot -/

/-- A live process stays live until it exits. -/
theorem Inv.live_step (hi : Inv s) (h : Xv6.step s (c, ch) = some t) (hq : Live (s.proc q).state) :
    Live (t.proc q).state ∨ ∃ status, writeOf s (c, ch) = some (q, .kexit status) := by
  rcases hi.slot_step h q with ⟨-, heq⟩ | ⟨op, hw, htw, heq⟩
  · exact Or.inl (heq ▸ hq)
  · rw [heq]
    cases htw with
    | visit => exact Or.inl (by rwa [Op.apply, schedulerVisit_state])
    | dispatch => exact Or.inl (Or.inr (Or.inr rfl))
    | userinit => exact Or.inl (Or.inr (Or.inl rfl))
    | leave _ _ hop =>
      cases hop with
      | yield => exact Or.inl (Or.inr (Or.inl rfl))
      | sleep => exact Or.inl (Or.inl rfl)
      | kexit status => exact Or.inr ⟨status, hw⟩
    | self _ _ hop => cases hop <;> exact Or.inl hq
    | scan hop =>
      rcases hop.state with h | ⟨-, h⟩
      · exact Or.inl (h ▸ hq)
      · exact Or.inl (Or.inr (Or.inl h))
    | allocproc hs => simp [hs, Live] at hq
    | inherit => exact Or.inl hq
    | forkfail hs => simp [hs, Live] at hq
    | setParent => exact Or.inl hq
    | publish => exact Or.inl (Or.inr (Or.inl rfl))
    | reparent => exact Or.inl hq
    | reap _ _ hs => simp [hs, Live] at hq

/-- How a parent link changes. -/
theorem Inv.parent_step (hi : Inv s) (h : Xv6.step s (c, ch) = some t) (p : Slot) :
    (t.proc p).parent = (s.proc p).parent ∨
      (∃ q, writeOf s (c, ch) = some (p, .setParent q) ∧ s.me c = some q ∧ (s.proc q).state = .running ∧
        (t.proc p).parent = some q) ∨
      (writeOf s (c, ch) = some (p, .reparent s.initproc) ∧ (t.proc p).parent = s.initproc) ∨
      (writeOf s (c, ch) = some (p, .reap) ∧ (t.proc p).state = .unused) := by
  rcases hi.slot_step h p with ⟨-, heq⟩ | ⟨op, hw, htw, heq⟩
  · exact Or.inl (by rw [heq])
  · rw [heq]
    rcases op.apply_parent (s.proc p) with hkeep | ⟨q, rfl⟩ | ⟨q, rfl⟩ | rfl
    · exact Or.inl hkeep
    · cases htw with
      | setParent hloc hrun => exact Or.inr (Or.inl ⟨_, hw, me_switched hloc, hrun, rfl⟩)
      | leave _ _ hop => cases hop
      | self _ _ hop => cases hop
      | scan hop => cases hop
    · cases htw with
      | reparent => exact Or.inr (Or.inr (Or.inl ⟨hw, rfl⟩))
      | leave _ _ hop => cases hop
      | self _ _ hop => cases hop
      | scan hop => cases hop
    · exact Or.inr (Or.inr (Or.inr ⟨hw, rfl⟩))

theorem Inv.write_unique {j : Slot} {op' : Op} (h : writeOf s (c, ch) = some (i, op))
    (h' : writeOf s (c, ch) = some (j, op')) : i = j ∧ op = op' := by
  rw [h] at h'
  cases h'
  exact ⟨rfl, rfl⟩

/-! ## The stacks of slots that cannot run -/

/-- The frames a new thread starts with, and those an exited process leaves behind. -/
def Frame.spent : Frame → Bool
  | .sched | .panic | .unlockSelf | .zombieExit => true
  | _ => false

theorem exec_kexit {me : Option Slot} {r st' : List Frame} (h : ExecCase s c me ch (.exitZombie status :: r) e st') :
    st' = .sched :: .zombieExit :: r := by
  cases h with
  | own hme h =>
    simp only [own] at h
    cases h
    rfl

theorem stack_of_kexit (hs : Reachable s) (h : Xv6.step s (c, ch) = some t)
    (hw : writeOf s (c, ch) = some (q, .kexit status)) :
    s.stack q = [.exitZombie status] ∧ t.stack q = [.sched, .zombieExit] := by
  obtain ⟨p, f, hme, hst, hf, -⟩ := wait_of_kin hs h hw rfl
  cases hf with
  | kexit hq =>
    obtain rfl := Option.some.inj hq
    refine ⟨hst, ?_⟩
    obtain ⟨e, hcs, hwe, -, -⟩ := (inv_of_reachable hs).code_step h
    obtain ⟨st', hx, -, hown⟩ := hcs.exec_of_write ((stack_of_me hme).symm.trans hst) (hwe.symm.trans hw)
    rw [hown _ hme, exec_kexit hx]

theorem spent_step (hs : Reachable s) (h : Xv6.step s (c, ch) = some t)
    (hd : ∀ q, ¬ Live (s.proc q).state → ∀ f ∈ s.stack q, f.spent = true) (q : Slot)
    (hq : ¬ Live (t.proc q).state) : ∀ f ∈ t.stack q, f.spent = true := by
  have hi := inv_of_reachable hs
  by_cases hl : Live (s.proc q).state
  · rcases hi.live_step h hl with hl | ⟨status, hw⟩
    · exact absurd hl hq
    · rw [(stack_of_kexit hs h hw).2]
      simp [Frame.spent]
  · have hold := hd q hl
    obtain ⟨e, hcs, -⟩ := hi.code_step h
    rcases hcs.stack_case hi q with h | ⟨-, h⟩ | h | ⟨st, hst, h | h⟩
    · rwa [h]
    · simp [h, Frame.spent]
    · exact absurd (Or.inr (Or.inr h)) hl
    all_goals
      rw [h]
      rw [hst] at hold
      simpa [Frame.spent] using hold

/-- A slot whose process cannot run has a spent stack. -/
theorem spent_of_reachable (hs : Reachable s) (q : Slot) (hq : ¬ Live (s.proc q).state) :
    ∀ f ∈ s.stack q, f.spent = true := by
  refine Automaton.Reachable.invariant (P := fun s : State n => ∀ q, ¬ Live (s.proc q).state → ∀ f ∈ s.stack q,
    f.spent = true) (fun _ _ f hf => absurd hf List.not_mem_nil) ?_ hs q hq
  rintro s ⟨c, ch⟩ t hs hd ht
  exact spent_step hs ht hd

/-- Whoever is inside a section of `wait_lock` is on a CPU that holds it. -/
theorem on_cpu_of_waits (hs : Reachable s) {f : Frame} (hf : f ∈ s.stack q) (hw : f.Waits q) :
    ∃ c, s.me c = some q ∧ .wait ∈ s.held c := by
  have hi := inv_of_reachable hs
  have hok := (stackOk_of_reachable hs).saved q
  have hnot : ¬ Saved q (s.stack q) := fun hsv => by
    cases hsv.lock_eq hok hf hw.1 hw.2
  by_cases hon : ∃ c, (s.cpu c).loc.proc = some q
  · obtain ⟨c, hc⟩ := hon
    rcases SchedLoc.proc_eq_some.mp hc with hc | hc
    · refine ⟨c, me_switched hc, ?_⟩
      rw [held_switched hc]
      exact mem_locksOf hok hf hw.1 hw.2
    · exact absurd ((hi.slot q).back c hc).2 hnot
  · obtain ⟨hne, hsv⟩ := (hi.slot q).idle fun c hc => hon ⟨c, hc⟩
    by_cases hl : Live (s.proc q).state
    · rcases hl with hl | hl | hl
      · exact absurd (hsv (Or.inr (Or.inr hl))) hnot
      · exact absurd (hsv (Or.inr (Or.inl hl))) hnot
      · exact absurd hl hne
    · have hsp := spent_of_reachable hs q hl f hf
      have hlock := hw.1
      cases f <;> simp_all [Frame.spent, Frame.locks, self]

theorem children_of_spent {st : List Frame} (h : ∀ f ∈ st, f.spent = true) : children st = [] := by
  induction st with
  | nil => rfl
  | cons f st ih =>
    obtain ⟨hf, hst⟩ := List.forall_mem_cons.mp h
    rw [children_cons, ih hst]
    cases f <;> first | rfl | cases hf

/-- A child stays with the thread that builds it until it is published or freed. -/
theorem child_kept (hs : Reachable s) (h : Xv6.step s (c, ch) = some t) (hm : p ∈ children (s.stack q)) :
    p ∈ children (t.stack q) ∨ writeOf s (c, ch) = some (p, .publish) ∨
      writeOf s (c, ch) = some (p, .forkfail) := by
  have hi := inv_of_reachable hs
  obtain ⟨e, hcs, hwe, -⟩ := hi.code_step h
  rw [hwe]
  cases hcs.stackStep q with
  | same h => exact Or.inl (h ▸ hm)
  | born hsp =>
    rw [children_of_spent (spent_of_reachable hs q (by simp [hcs.spawn_unused hsp, Live]))] at hm
    cases hm
  | exec _ hx h hns =>
    rw [h]
    have hw := exec_wrote hns hx
    generalize e.write = w at hw ⊢
    generalize e.spawn = sp at hw
    cases hw with
    | alloc _ _ _ _ _ hk => exact Or.inl (hk ▸ List.mem_cons_of_mem _ hm)
    | forkFail _ _ _ hk =>
      rw [hk] at hm
      rcases List.mem_cons.mp hm with rfl | hm
      · exact Or.inr (Or.inr rfl)
      · exact Or.inl hm
    | publish _ _ _ hk =>
      rw [hk] at hm
      rcases List.mem_cons.mp hm with rfl | hm
      · exact Or.inr (Or.inl rfl)
      · exact Or.inl hm
    | nothing _ hk => exact Or.inl (hk ▸ hm)
    | leave _ _ _ _ _ hk => exact Or.inl (hk ▸ hm)
    | self _ _ _ hk => exact Or.inl (hk ▸ hm)
    | scan _ _ _ hk => exact Or.inl (hk ▸ hm)
    | allocFail _ _ _ _ _ hk => exact Or.inl (hk ▸ hm)
    | inherit _ _ _ _ hk => exact Or.inl (hk ▸ hm)
    | setParent _ _ _ _ hk => exact Or.inl (hk ▸ hm)
    | reparent _ _ _ _ hk => exact Or.inl (hk ▸ hm)
    | reap _ _ _ _ _ hk => exact Or.inl (hk ▸ hm)
  | interrupt _ hx _ h =>
    rw [h, (interrupt_frames hx).2]
    exact Or.inl hm
  | panic _ hst _ h => exact Or.inl (by simpa [h, hst, Frame.child] using hm)
  | swtch _ hst _ h => exact Or.inl (by simpa [h, hst, Frame.child] using hm)

/-- A slot that `allocproc()` gives out is a child being built. -/
theorem child_of_alloc (hi : Inv s) (h : Xv6.step s (c, ch) = some t) {pid : Int} {tf pt : Nat}
    (hw : writeOf s (c, ch) = some (p, .allocproc pid tf pt)) (hp : (t.proc p).state ≠ .unused) :
    ∃ q, p ∈ children (t.stack q) := by
  obtain ⟨e, hcs, hwe, -⟩ := hi.code_step h
  have htab := step_table h
  rw [hw, tableAfter] at htab
  rw [hwe] at hw
  cases hcs with
  | @exec e st' hx hns _ _ hown =>
    have hwr := exec_wrote hns hx
    rw [hw] at hwr
    generalize e.spawn = sp at hwr
    cases hwr with
    | @alloc q _ _ _ hme _ _ _ _ hk =>
      refine ⟨q, ?_⟩
      rw [hown q hme, hk]
      exact List.mem_cons_self
    | allocFail _ _ hok =>
      rw [htab, update_self, Op.apply, allocproc_state, hok] at hp
      exact absurd rfl hp
    | leave _ hop => cases hop
    | self _ hop => cases hop
    | scan hop => cases hop
  | interrupt => cases hw
  | panic => cases hw
  | dispatch => cases hw
  | swtch => cases hw
  | boot => cases hw
  | idle _ _ _ _ _ hno =>
    rcases hno with hno | ⟨i, hno⟩
    · rw [hno] at hw
      cases hw
    · rw [hno] at hw
      cases hw

/-! ## One step -/

/-- `userinit()` makes the first process; before it nothing else happens, and after it `initproc` is fixed. -/
theorem Family.init_case (hf : Family s) (h : Xv6.step s (c, ch) = some t) :
    (∃ i, s.initproc = some i ∧ t.initproc = some i) ∨
      (s.initproc = none ∧ t.initproc = some 0 ∧ t.stack = update s.stack 0 [.unlockSelf] ∧
        ∃ pid tf pt, t.proc = update s.proc 0 ((Op.userinit pid tf pt).apply (s.proc 0))) := by
  obtain ⟨e, k, hcase, rfl, -⟩ := step_case h
  cases hinit : s.initproc with
  | none =>
    have hboot := (hf.boot hinit).1 c
    right
    cases hcase with
    | boot => exact ⟨rfl, rfl, rfl, _, _, _, rfl⟩
    | start _ hno => cases hinit.symm.trans hno
    | pass hloc => cases hboot.symm.trans hloc
    | irqTake hloc => cases hboot.symm.trans hloc
    | irqExec hloc => cases hboot.symm.trans hloc
    | scan hloc => cases hboot.symm.trans hloc
    | visit hloc => cases hboot.symm.trans hloc
    | select hloc => cases hboot.symm.trans hloc
    | dispatch hloc => cases hboot.symm.trans hloc
    | skip hloc => cases hboot.symm.trans hloc
    | swtch hloc => cases hboot.symm.trans hloc
    | schedPanic hloc => cases hboot.symm.trans hloc
    | interrupt hloc => cases hboot.symm.trans hloc
    | thread hloc => cases hboot.symm.trans hloc
    | back hloc => cases hboot.symm.trans hloc
    | wfi hloc => cases hboot.symm.trans hloc
  | some i =>
    left
    refine ⟨i, rfl, ?_⟩
    cases hcase with
    | boot _ hno => cases hinit.symm.trans hno
    | _ => exact hinit

theorem Family.of_boot (hf : Family s) (hinit : s.initproc = none) (hinit' : t.initproc = some 0)
    (hstack : t.stack = update s.stack 0 [.unlockSelf]) {pid : Int} {tf pt : Nat}
    (hproc : t.proc = update s.proc 0 ((Op.userinit pid tf pt).apply (s.proc 0))) : Family t := by
  obtain ⟨-, hnew⟩ := hf.boot hinit
  have hpar : ∀ p, (t.proc p).parent = none := by
    intro p
    have hp : (s.proc p).parent = none := by
      cases hq : (s.proc p).parent with
      | none => rfl
      | some q =>
        have hl := hf.live p q hq
        simp [(hnew q).1, Live] at hl
    rw [hproc]
    by_cases h0 : p = 0
    · subst h0
      rw [update_self]
      exact (allocproc_parent pid tf pt _).trans hp
    · rw [update_of_ne h0, hp]
  refine ⟨fun h => ?_, fun i hi => ?_, fun p q hq => ?_, fun p hp _ hne => ?_, fun q => ?_⟩
  · rw [hinit'] at h
    cases h
  · obtain rfl := Option.some.inj (hinit'.symm.trans hi)
    rw [hproc, update_self]
    exact Or.inr (Or.inl rfl)
  · rw [hpar p] at hq
    cases hq
  · have h0 : p ≠ 0 := by
      rintro rfl
      exact hne hinit'
    rw [hproc, update_of_ne h0] at hp
    exact absurd (hnew p).1 hp
  · rw [hstack]
    by_cases h0 : q = 0
    · subst h0
      simp [Frame.Knows]
    · rw [update_of_ne h0, (hnew q).2]
      exact known_nil

/-- An exiting process has no children left and is not `init`. -/
theorem Family.of_kexit (hf : Family s) (hs : Reachable s) (h : Xv6.step s (c, ch) = some t)
    (hw : writeOf s (c, ch) = some (q, .kexit status)) :
    s.initproc ≠ some q ∧ ∀ j, (s.proc j).parent ≠ some q := by
  have hk := hf.known q
  rw [(stack_of_kexit hs h hw).1] at hk
  exact ((known_cons _).mp hk).1

theorem Family.live_step (hf : Family s) (hs : Reachable s) (h : Xv6.step s (c, ch) = some t)
    (hinit : s.initproc = some i) (p q : Slot) (hq : (t.proc p).parent = some q) : Live (t.proc q).state := by
  have hi := inv_of_reachable hs
  have hinitl := hf.init i hinit
  rcases hi.parent_step h p with hp | ⟨q', hw, -, hrun, hp⟩ | ⟨hw, hp⟩ | ⟨hw, hp⟩
  · rw [hp] at hq
    rcases hi.live_step h (hf.live p q hq) with hl | ⟨status, hw⟩
    · exact hl
    · exact absurd hq ((hf.of_kexit hs h hw).2 p)
  · obtain rfl := Option.some.inj (hp.symm.trans hq)
    rcases hi.live_step h (Or.inr (Or.inr hrun)) with hl | ⟨status, hw'⟩
    · exact hl
    · cases (Inv.write_unique hw hw').2
  · rw [hp, hinit] at hq
    obtain rfl := Option.some.inj hq
    rcases hi.live_step h hinitl with hl | ⟨status, hw'⟩
    · exact hl
    · cases (Inv.write_unique hw hw').2
  · have htab := step_table h
    rw [hw, tableAfter] at htab
    rw [htab, update_self] at hq
    cases hq

theorem Family.published_step (hf : Family s) (hs : Reachable s) (h : Xv6.step s (c, ch) = some t)
    (hinit : s.initproc = some i) (p : Slot) (hp : (t.proc p).state ≠ .unused) (hno : ∀ q, p ∉ children (t.stack q))
    (hne : s.initproc ≠ some p) : (t.proc p).parent ≠ none := by
  have hi := inv_of_reachable hs
  have hbefore : (s.proc p).parent ≠ none := by
    by_cases hch : ∃ q, p ∈ children (s.stack q)
    · obtain ⟨q, hq⟩ := hch
      rcases child_kept hs h hq with hm | hw | hw
      · exact absurd hm (hno q)
      · -- the child is published: its parent has been set
        rcases hi.writer h hw with hop | ⟨f, r, hcode, hfw⟩
        · simp at hop
        · cases hfw with
          | @publish q' _ pid hme =>
            have hk := hf.known q'
            rw [stack_of_me hme, hcode] at hk
            have hpar : (s.proc p).parent = some q' := ((known_cons _).mp hk).1
            rw [hpar]
            simp
      · have htab := step_table h
        rw [hw, tableAfter] at htab
        rw [htab, update_self] at hp
        exact absurd rfl hp
    · refine hf.published p ?_ (fun q hq => hch ⟨q, hq⟩) hne
      intro hfree
      rcases hi.slot_step h p with ⟨-, heq⟩ | ⟨op, hw, htw, heq⟩
      · exact hp (heq ▸ hfree)
      · cases htw with
        | visit => exact hp (by rw [heq, Op.apply, schedulerVisit_state, hfree])
        | dispatch _ _ hst => cases hfree.symm.trans hst
        | userinit hnone => cases hinit.symm.trans hnone
        | leave _ hst => cases hfree.symm.trans hst
        | self _ hst => cases hfree.symm.trans hst
        | scan hop =>
          rcases hop.state with hst | ⟨hst, -⟩
          · exact hp (by rw [heq, hst, hfree])
          · cases hfree.symm.trans hst
        | allocproc =>
          obtain ⟨q, hq⟩ := child_of_alloc hi h hw hp
          exact hno q hq
        | inherit _ hst => cases hfree.symm.trans hst
        | forkfail hst => cases hfree.symm.trans hst
        | setParent _ _ hst => cases hfree.symm.trans hst
        | publish hst => cases hfree.symm.trans hst
        | reparent => exact hp (by rw [heq]; exact hfree)
        | reap _ _ hst => cases hfree.symm.trans hst
  rcases hi.parent_step h p with hpar | ⟨q, -, -, -, hpar⟩ | ⟨-, hpar⟩ | ⟨-, hpar⟩
  · rwa [hpar]
  · rw [hpar]
    simp
  · rw [hpar, hinit]
    simp
  · exact absurd hpar hp

/-- What a frame outside the sections of `wait_lock` knows does not depend on the others. -/
theorem Frame.Knows.of_not_waits {init : Option Slot} {P P' : Slot → Proc} {f : Frame} (h : f.Knows init P q)
    (hw : ¬ f.Waits q) (hnp : ∀ np pid, f = .forkPublish np pid → (P' np).parent = some q) :
    f.Knows init P' q := by
  cases f
  case forkPublish np pid => exact hnp np pid rfl
  case reparent status i =>
    have hi : i = 0 := by_contra fun hi => hw (by simp [Frame.Waits, Frame.locks, Frame.enters, hi])
    subst hi
    exact ⟨h.1, fun j hj => absurd hj (Fin.not_lt_zero j)⟩
  case waitScan addr i havekids =>
    have hi : i = 0 := by_contra fun hi => hw (by simp [Frame.Waits, Frame.locks, Frame.enters, hi])
    subst hi
    exact fun j hj => absurd hj (Fin.not_lt_zero j)
  all_goals first | trivial | exact absurd (by simp [Frame.Waits, Frame.locks, Frame.enters, self]) hw

/-- The four writes leave the other threads right in what they know. -/
theorem Family.known_other (hf : Family s) (hs : Reachable s) (h : Xv6.step s (c, ch) = some t)
    (hw : writeOf s (c, ch) = some (i, op)) (hop : op.kin = true) (hme : s.me c = some p) (hq : q ≠ p) :
    Known s.initproc t.proc q (t.stack q) := by
  have hi := inv_of_reachable hs
  obtain ⟨e, hcs, hwe, -⟩ := hi.code_step h
  obtain ⟨p', f, hme', hst, hfw, hheld⟩ := wait_of_kin hs h hw hop
  obtain rfl := Option.some.inj (hme.symm.trans hme')
  have hne : s.me c ≠ some q := fun hc => hq (Option.some.inj (hc.symm.trans hme))
  rcases (hcs.stackStep q) with hsame | ⟨-, hnew⟩ | hc | hc | hc | hc
  · rw [hsame]
    intro g hg
    refine (hf.known q g hg).of_not_waits (fun hwaits => ?_) fun np pid hgp => ?_
    · obtain ⟨d, hd, hdw⟩ := on_cpu_of_waits hs hg hwaits
      rw [hi.owned.unique hdw hheld] at hd
      exact hne hd
    · subst hgp
      have hknow : (s.proc np).parent = some q := hf.known q _ hg
      have hchild : np ∈ children (s.stack q) := List.mem_filterMap.mpr ⟨_, hg, rfl⟩
      rcases hi.parent_step h np with hpar | ⟨r, hw', hr, -, -⟩ | ⟨hw', -⟩ | ⟨hw', -⟩
      · rw [hpar, hknow]
      · -- the child of another process
        exfalso
        obtain ⟨rfl, rfl⟩ := Inv.write_unique hw hw'
        cases hfw with
        | setParent => exact hq (hi.forkOne q p _ hchild (by simp [hst, Frame.child]))
      · exfalso
        obtain ⟨rfl, rfl⟩ := Inv.write_unique hw hw'
        cases (hi.tableWrite_of h hw).1 with
        | reparent hloc _ hpp =>
          rw [hknow] at hpp
          exact hne ((me_switched hloc).trans hpp.symm)
        | leave _ _ hop => cases hop
        | self _ _ hop => cases hop
        | scan hop => cases hop
      · exfalso
        obtain ⟨rfl, rfl⟩ := Inv.write_unique hw hw'
        have hused := hi.forkUsed q i hchild
        cases (hi.tableWrite_of h hw).1 with
        | reap _ _ hz => cases hused.symm.trans hz
        | leave _ _ hop => cases hop
        | self _ _ hop => cases hop
        | scan hop => cases hop
  · simp [hnew, Frame.Knows]
  all_goals exact absurd hc hne

/-- The four writes leave the thread that makes them right in what it knows. -/
theorem Family.known_self (hf : Family s) (hs : Reachable s) (h : Xv6.step s (c, ch) = some t)
    (hw : writeOf s (c, ch) = some (i, op)) (hop : op.kin = true) (hme : s.me c = some p) :
    Known s.initproc t.proc p (t.stack p) := by
  have hi := inv_of_reachable hs
  obtain ⟨e, hcs, hwe, -⟩ := hi.code_step h
  obtain ⟨p', f, hme', hst, hfw, hheld⟩ := wait_of_kin hs h hw hop
  obtain rfl := Option.some.inj (hme.symm.trans hme')
  obtain ⟨st', hx, -, hown⟩ := hcs.exec_of_write ((stack_of_me hme).symm.trans hst) (hwe.symm.trans hw)
  rw [hme] at hx
  have hkf : f.Knows s.initproc s.proc p := hf.known p f (by simp [hst])
  have htab := step_table h
  rw [hw, tableAfter] at htab
  rw [hown p hme]
  cases hfw with
  | setParent hq =>
    obtain rfl := Option.some.inj hq
    cases hx with
    | own hme h =>
      simp only [own] at h
      cases h
      simp [Frame.Knows, htab, Op.apply]
  | kexit hq =>
    rw [exec_kexit hx]
    simp [Frame.Knows]
  | reap =>
    cases hx with
    | own hme h =>
      obtain rfl := Option.some.inj hme
      simp only [own] at h
      rw [hwe] at hw
      split_ifs at h
      all_goals cases h
      all_goals simp [Frame.Knows] at hw ⊢
  | @reparent _ _ status =>
    cases hx with
    | own hme h =>
      obtain rfl := Option.some.inj hme
      simp only [own] at h
      rw [hwe] at hw
      split_ifs at h
      · cases h
        cases hw
        rw [known_scanFrom]
        have hother : ∀ j, j ≠ i → (t.proc j).parent = (s.proc j).parent := fun j hj => by
          rw [htab, update_of_ne hj]
        refine known_reparentNext ⟨hkf.1, fun j hj => ?_⟩ ?_
        · rw [hother j (ne_of_lt hj)]
          exact hkf.2 j hj
        · rw [htab, update_self]
          exact hkf.1
      · cases h
        cases hw
  | _ => cases hop

theorem Family.known_step (hf : Family s) (hs : Reachable s) (h : Xv6.step s (c, ch) = some t) (q : Slot) :
    Known s.initproc t.proc q (t.stack q) := by
  have hi := inv_of_reachable hs
  rcases hi.kin_step h with ⟨hsame, hno⟩ | ⟨i, op, hop, hw⟩
  · obtain ⟨e, hcs, hwe, -⟩ := hi.code_step h
    have hk := (hcs.stackStep q).known ((stackOk_of_reachable hs).saved q) (hf.known q) fun i op hw =>
      hno i op (hwe.trans hw)
    exact fun f hm => (hk f hm).congr hsame
  · obtain ⟨p, f, hme, -⟩ := wait_of_kin hs h hw hop
    by_cases hq : q = p
    · subst hq
      exact hf.known_self hs h hw hop hme
    · exact hf.known_other hs h hw hop hme hq

theorem Family.step (hf : Family s) (hs : Reachable s) (h : Xv6.step s (c, ch) = some t) : Family t := by
  rcases hf.init_case h with ⟨i, hinit, hinit'⟩ | ⟨hinit, hinit', hstack, pid, tf, pt, hproc⟩
  · have heq : t.initproc = s.initproc := hinit'.trans hinit.symm
    refine ⟨fun hno => ?_, fun j hj => ?_, hf.live_step hs h hinit, ?_, fun q => ?_⟩
    · cases hinit'.symm.trans hno
    · rw [heq] at hj
      rcases (inv_of_reachable hs).live_step h (hf.init j hj) with hl | ⟨status, hw⟩
      · exact hl
      · exact absurd hj (hf.of_kexit hs h hw).1
    · rw [heq]
      exact hf.published_step hs h hinit
    · rw [heq]
      exact hf.known_step hs h q
  · exact hf.of_boot hinit hinit' hstack hproc

end Step

theorem Family.start : Family (State.init n) where
  boot := fun _ => ⟨fun _ => rfl, fun _ => ⟨rfl, rfl⟩⟩
  init := fun _ h => by cases h
  live := fun _ _ h => by cases h
  published := fun _ h => absurd rfl h
  known := fun _ => known_nil

/-- **The family invariant.** -/
theorem family_of_reachable {s : State n} (hs : Reachable s) : Family s := by
  refine Automaton.Reachable.invariant Family.start ?_ hs
  rintro s ⟨c, ch⟩ t hs hf ht
  exact hf.step hs ht

end Xv6
