import Xv6.Proc.Stack
import Xv6.Sched.Pass

/-!
# Free slots are clean

`allocproc()` does not reset every field, so it relies on what `freeproc()` and the calls that scan the
table left in an UNUSED slot.

* `Clean p` : the fields of a slot are as `procinit()` left them;
* `SparesFree` : the step is not `kkill(0)` looking at an UNUSED slot, whose `pid` is 0 too;
* `free_slots_clean` : in a run of such steps UNUSED slots are clean, and `kkill()` acts as documented;
* `kill_zero_poisons` : `kill(0)` marks an UNUSED slot killed, and the next process in it starts killed.
-/

namespace Xv6

variable {n : Nat}

structure Clean (p : Proc) : Prop where
  pid : p.pid = 0
  killed : p.killed = false
  chan : p.chan = .null
  xstate : p.xstate = 0
  parent : p.parent = none
  sz : p.sz = 0
  pagetable : p.pagetable = 0
  trapframe : p.trapframe = 0
  priority : p.priority = 10
  waitTicks : p.waitTicks = 0

def SparesFree (s : State n) (l : Label n) (_ : State n) : Prop :=
  match s.code l.1 with
  | .visit (.kkill pid) i :: _ => pid = 0 → (s.proc i).state ≠ .unused
  | _ => True

instance (s : State n) (l : Label n) (t : State n) : Decidable (SparesFree s l t) := by
  unfold SparesFree
  split <;> infer_instance

/-- The child of a `kfork()` that has not set its parent yet. -/
def Frame.fresh : Frame → Option Slot
  | .forkSnapshot np | .forkCopy np _ => some np
  | _ => none

structure FreeOk (s : State n) : Prop where
  clean : ∀ p, (s.proc p).state = .unused → Clean (s.proc p)
  fresh : ∀ p, ∀ np ∈ pick Frame.fresh (s.stack p), (s.proc np).parent = none

/-! ## One step -/

theorem clean_procinit : Clean procinit := by
  constructor <;> rfl

theorem clean_freeproc {p : Proc} (h : p.parent = none) : Clean (freeproc p) := by
  constructor <;> first | rfl | exact h

section Exec
variable {s : State n} {c : Fin n} {me : Option Slot} {ch : Choice} {st st' : List Frame} {e : Effect}

theorem Frame.fresh_scanning (f : Frame) (h : f.scanning = true) : f.fresh = none := by
  cases f <;> first | rfl | cases h

/-- A child without a parent was one before, or is being allocated. -/
theorem exec_fresh {np : Slot} (h : ExecCase s c me ch st e st') (hm : np ∈ pick Frame.fresh st') :
    np ∈ pick Frame.fresh st ∨ ∃ pid tf pt, e.write = some (np, .allocproc pid tf pt) := by
  have hskip := pick_skips Frame.fresh_scanning
  cases h with
  | enter hme h =>
    cases ch
    all_goals simp only [enter] at h
    all_goals repeat' (split at h)
    all_goals cases h
    all_goals simp [Frame.fresh, hskip] at hm
  | acquire hfree => exact Or.inl (by simpa [Frame.fresh] using hm)
  | twice hheld => exact Or.inl (by simpa [Frame.fresh] using hm)
  | @visit j i st =>
    left
    unfold visit at hm
    dsimp only at hm
    split at hm
    · simpa [Frame.fresh] using hm
    · rw [hskip.2.1] at hm
      simpa [Frame.fresh] using hm
  | hold h =>
    left
    cases ch
    all_goals simp only [hold] at h
    all_goals repeat' (split at h)
    all_goals cases h
    all_goals simpa [Frame.fresh, hskip] using hm
  | @own q f st st' e hme h =>
    cases f
    all_goals simp only [own] at h
    all_goals repeat' (split at h)
    all_goals cases h
    all_goals simp only [pick_cons, Frame.fresh, hskip, Option.toList_none, Option.toList_some, List.nil_append,
      List.singleton_append, List.mem_cons] at hm ⊢
    case h_1.isTrue =>
      rcases hm with rfl | hm
      · exact Or.inr ⟨_, _, _, rfl⟩
      · exact Or.inl hm
    all_goals first | exact Or.inl hm | exact Or.inl (Or.inr hm)

theorem interrupt_fresh (h : interrupt me st ch = some st') : pick Frame.fresh st' = pick Frame.fresh st := by
  cases ch
  all_goals simp only [interrupt] at h
  case timer =>
    obtain ⟨p, -, rfl⟩ := Option.map_eq_some_iff.mp h
    simp [Frame.fresh]
  all_goals cases h
  all_goals simp [Frame.fresh, pick_skips Frame.fresh_scanning]

end Exec

section Step
variable {s t : State n} {c : Fin n} {ch : Choice} {e : Effect} {st : List Frame} {i : Slot}

theorem StackStep.fresh {p np : Slot} (h : StackStep s t c ch e p) (hm : np ∈ pick Frame.fresh (t.stack p)) :
    np ∈ pick Frame.fresh (s.stack p) ∨ ∃ pid tf pt, e.write = some (np, .allocproc pid tf pt) := by
  cases h with
  | same h => exact Or.inl (h ▸ hm)
  | born _ h =>
    rw [h] at hm
    simp [Frame.fresh] at hm
  | exec _ hx h => exact exec_fresh hx (h ▸ hm)
  | interrupt _ hx _ h =>
    rw [h, interrupt_fresh hx] at hm
    exact Or.inl hm
  | panic _ hst _ h =>
    rw [h] at hm
    rw [hst]
    exact Or.inl hm
  | swtch _ hst _ h =>
    rw [h] at hm
    rw [hst]
    exact Or.inl hm

theorem mem_children_of_fresh {np : Slot} (h : np ∈ pick Frame.fresh st) : np ∈ children st := by
  unfold children
  induction st with
  | nil => cases h
  | cons f st ih =>
    rw [pick_cons] at h ⊢
    refine List.mem_append.mpr ((List.mem_append.mp h).imp (fun hf => ?_) ih)
    cases f <;> simp_all [Frame.fresh, Frame.child]

/-- `allocproc()` fails and frees the slot, or gives it out. -/
theorem allocproc_case (pid : Int) (tf pt : Nat) (p : Proc) :
    (∃ q, q.parent = p.parent ∧ (allocproc pid tf pt p).1 = freeproc q) ∨
      ((allocproc pid tf pt p).1.state = .used ∧ (allocproc pid tf pt p).1.killed = p.killed) := by
  unfold allocproc
  dsimp only
  split_ifs
  · exact Or.inl ⟨_, rfl, rfl⟩
  · exact Or.inl ⟨_, rfl, rfl⟩
  · exact Or.inr ⟨rfl, rfl⟩

/-- What `kkill()` does at a slot. -/
theorem CodeStep.kkill {pid : Int} (h : CodeStep s t c ch e) (hcode : s.code c = .visit (.kkill pid) i :: st) :
    e = (visit (s.proc i) (.kkill pid) i st).1 ∧ t.code c = (visit (s.proc i) (.kkill pid) i st).2 := by
  cases h with
  | exec hx _ hcode' =>
    rw [hcode] at hx
    rw [hcode']
    exact exec_visit hx
  | interrupt _ hheld =>
    have hl : .proc i ∈ s.held c := mem_held_of_code (by simp [hcode, locksOf, Frame.locks])
    rw [hheld] at hl
    cases hl
  | panic _ h => cases hcode.symm.trans h
  | dispatch h => cases hcode.symm.trans h
  | swtch _ h => cases hcode.symm.trans h
  | boot h => cases hcode.symm.trans h
  | idle h => cases hcode.symm.trans h

/-- `kkill()` spares the slots that are free. -/
theorem state_of_kkill {p : Slot} (hi : Inv s) (h : FreeOk s) (hstep : Xv6.step s (c, ch) = some t)
    (hok : SparesFree s (c, ch) t) (hw : writeOf s (c, ch) = some (p, .kkill)) :
    (s.proc p).state ≠ .unused := by
  obtain ⟨e, hcs, hwe, -, -⟩ := hi.code_step hstep
  rw [hwe] at hw
  rcases hcs.writer hw with h | ⟨f, r, hcode, hf⟩
  · simp at h
  · cases hf with
    | @kkill pid =>
      intro hfree
      simp only [SparesFree, hcode] at hok
      refine hok ?_ hfree
      rw [(hcs.kkill hcode).1] at hw
      obtain ⟨op, hop, heq⟩ := Option.map_eq_some_iff.mp hw
      cases heq
      cases scanWrite_of_body hop with
      | kkill hpid => exact hpid.symm.trans (h.clean p hfree).pid

theorem FreeOk.clean_step (h : FreeOk s) (hi : Inv s) (hstep : Xv6.step s (c, ch) = some t)
    (hok : SparesFree s (c, ch) t) (p : Slot) (hp : (t.proc p).state = .unused) : Clean (t.proc p) := by
  rcases hi.slot_step hstep p with ⟨-, hq⟩ | ⟨op, hwr, hw, hq⟩
  · rw [hq] at hp ⊢
    exact h.clean p hp
  · rw [hq] at hp ⊢
    cases hw with
    | visit =>
      have hs : (s.proc p).state = .unused := by rwa [Op.apply, schedulerVisit_state] at hp
      rw [Op.apply, schedulerVisit_of_not_runnable (by rw [hs]; simp)]
      exact h.clean p hs
    | dispatch => cases hp
    | userinit => cases hp
    | leave _ _ hop => cases hop <;> cases hp
    | self _ hrun hop => cases hop <;> exact absurd (hrun.symm.trans hp) (by simp)
    | scan hop =>
      have hs : (s.proc p).state = .unused := by
        rcases hop.state with hst | ⟨-, hst⟩
        · exact hst.symm.trans hp
        · rw [hst] at hp
          cases hp
      have hc := h.clean p hs
      cases hop with
      | wakeup => exact ⟨hc.pid, hc.killed, rfl, hc.xstate, hc.parent, hc.sz, hc.pagetable, hc.trapframe,
          hc.priority, hc.waitTicks⟩
      | kkill => exact absurd hs (state_of_kkill hi h hstep hok hwr)
      | ksetpriority hne => exact absurd hs hne
    | allocproc hs =>
      rcases allocproc_case s.nextpid _ _ (s.proc p) with ⟨q, hq, he⟩ | ⟨he, -⟩
      · rw [Op.apply, he]
        exact clean_freeproc (hq.trans (h.clean p hs).parent)
      · rw [Op.apply, he] at hp
        cases hp
    | inherit _ hs => exact absurd (hs.symm.trans hp) (by simp)
    | forkfail =>
      refine clean_freeproc ?_
      rcases hi.writer hstep hwr with h | ⟨f, r, hcode, hf⟩
      · simp at h
      · cases hf with
        | @forkfail q _ _ hme =>
          refine h.fresh q p ?_
          rw [stack_of_me hme, hcode]
          simp [Frame.fresh]
    | setParent _ _ hs => exact absurd (hs.symm.trans hp) (by simp)
    | publish => cases hp
    | reparent _ _ hpp =>
      rw [(h.clean p hp).parent] at hpp
      cases hpp
    | reap => exact clean_freeproc rfl

theorem FreeOk.fresh_step (h : FreeOk s) (hs : Reachable s) (hstep : Xv6.step s (c, ch) = some t) (p : Slot)
    (np : Slot) (hm : np ∈ pick Frame.fresh (t.stack p)) : (t.proc np).parent = none := by
  have hi := inv_of_reachable hs
  obtain ⟨e, hcs, hwe, -, -⟩ := hi.code_step hstep
  have hkeep : (s.proc np).parent = none ∧
      (np ∈ pick Frame.fresh (s.stack p) ∨ ∃ pid tf pt, e.write = some (np, .allocproc pid tf pt)) := by
    rcases (hcs.stackStep p).fresh hm with hm | ⟨pid, tf, pt, hw⟩
    · exact ⟨h.fresh p np hm, Or.inl hm⟩
    · refine ⟨?_, Or.inr ⟨pid, tf, pt, hw⟩⟩
      rcases hi.slot_step hstep np with ⟨hno, -⟩ | ⟨op, hwr, htw, -⟩
      · exact absurd (hwe.trans hw) (hno _)
      · rw [hwe, hw] at hwr
        cases hwr
        cases htw with
        | allocproc hfree => exact (h.clean np hfree).parent
        | leave _ _ hop => cases hop
        | self _ _ hop => cases hop
        | scan hop => cases hop
  obtain ⟨hpar, hm⟩ := hkeep
  rcases hi.slot_step hstep np with ⟨-, hq⟩ | ⟨op, hwr, htw, hq⟩
  · rw [hq, hpar]
  · rw [hq]
    rcases op.apply_parent (s.proc np) with hkeep | ⟨q, rfl⟩ | ⟨q, rfl⟩ | rfl
    · rw [hkeep, hpar]
    · -- the child whose parent is being set is not fresh any more
      exfalso
      rcases hi.writer hstep hwr with h | ⟨f, r, hcode, hf⟩
      · simp at h
      · cases hf with
        | @setParent _ _ pid hme =>
          have hst : s.stack q = .forkParent np pid :: r := by rw [stack_of_me hme, hcode]
          have hr : r = [] := by
            have hok := (stackOk_of_reachable hs).saved q
            rw [hst] at hok
            exact hok.1 rfl
          rcases hm with hm | ⟨pid, tf, pt, hw⟩
          · have hpq : p = q := by
              refine hi.forkOne p q np (mem_children_of_fresh hm) ?_
              rw [hst]
              simp [Frame.child]
            rw [hpq, hst, hr] at hm
            simp [Frame.fresh] at hm
          · rw [hwe, hw] at hwr
            cases hwr
    · cases htw with
      | reparent _ _ hpp =>
        rw [hpar] at hpp
        cases hpp
      | leave _ _ hop => cases hop
      | self _ _ hop => cases hop
      | scan hop => cases hop
    · rfl

theorem FreeOk.step (h : FreeOk s) (hs : Reachable s) (hstep : Xv6.step s (c, ch) = some t)
    (hok : SparesFree s (c, ch) t) : FreeOk t :=
  ⟨h.clean_step (inv_of_reachable hs) hstep hok, h.fresh_step hs hstep⟩

/-- What `allocproc()` gives out is not killed. -/
theorem FreeOk.not_killed {op : Op} (h : FreeOk s) (hi : Inv s) (hstep : Xv6.step s (c, ch) = some t)
    (hw : writeOf s (c, ch) = some (i, op)) (hop : ∃ pid tf pt, op = .allocproc pid tf pt ∨ op = .userinit pid tf pt) :
    (t.proc i).killed = false := by
  obtain ⟨htw, hq⟩ := hi.tableWrite_of hstep hw
  have hfree : (s.proc i).state = .unused := by
    obtain ⟨pid, tf, pt, rfl | rfl⟩ := hop
    · cases htw with
      | allocproc hfree => exact hfree
      | leave _ _ hop => cases hop
      | self _ _ hop => cases hop
      | scan hop => cases hop
    · cases htw with
      | userinit _ hfree => exact hfree
      | leave _ _ hop => cases hop
      | self _ _ hop => cases hop
      | scan hop => cases hop
  have hk : ∀ pid tf pt, (allocproc pid tf pt (s.proc i)).1.killed = false := by
    intro pid tf pt
    rcases allocproc_case pid tf pt (s.proc i) with ⟨q, -, he⟩ | ⟨-, he⟩
    · rw [he]
      rfl
    · rw [he, (h.clean i hfree).killed]
  rw [hq]
  obtain ⟨pid, tf, pt, rfl | rfl⟩ := hop
  · exact hk pid tf pt
  · exact hk pid tf pt

/-- `kkill()` returns 0 at a slot in use with its pid, or goes on and changes nothing. -/
theorem FreeOk.kkill {pid : Int} (h : FreeOk s) (hi : Inv s) (hstep : Xv6.step s (c, ch) = some t)
    (hok : SparesFree s (c, ch) t) (hcode : s.code c = .visit (.kkill pid) i :: st) :
    (t.code c = .sysret 0 :: st ∧ (s.proc i).state ≠ .unused ∧ (s.proc i).pid = pid) ∨
      (t.code c = scanNext (.kkill pid) i st ∧ t.proc = s.proc) := by
  obtain ⟨e, hcs, hwe, -, -⟩ := hi.code_step hstep
  obtain ⟨he, hcode'⟩ := hcs.kkill hcode
  by_cases hpid : (s.proc i).pid = pid
  · refine Or.inl ⟨by simp [hcode', visit, Job.body, Xv6.kkill, hpid], ?_, hpid⟩
    refine state_of_kkill hi h hstep hok ?_
    simp [hwe, he, visit, Job.body, Xv6.kkill, hpid]
  · refine Or.inr ⟨by simp [hcode', visit, Job.body, Xv6.kkill, hpid], ?_⟩
    rcases hi.table_step hstep with ⟨-, htab⟩ | ⟨k, op, hwr, -, -⟩
    · exact htab
    · simp [hwe, he, visit, Job.body, Xv6.kkill, hpid] at hwr

end Step

/-! ## Every run -/

theorem FreeOk.init : FreeOk (State.init n) where
  clean := fun _ _ => clean_procinit
  fresh := fun _ _ h => absurd h List.not_mem_nil

theorem freeOk_of_each {ls : List (Label n)} (hok : Automaton.Each step SparesFree (State.init n) ls) :
    Automaton.Always step (fun s => Reachable s ∧ FreeOk s) (State.init n) ls := by
  refine Automaton.Each.always (hok.imp ?_) ⟨Automaton.Reachable.refl _, FreeOk.init⟩
  rintro s ⟨c, ch⟩ t hstep hq ⟨hs, hf⟩
  exact ⟨Automaton.Reachable.next hs hstep, hf.step hs hstep hq⟩

/-- **Free slots are clean** in every run in which no `kkill(0)` comes to an UNUSED slot. What `allocproc()`
gives out is then not killed, and `kkill(pid)` returns 0 at a slot in use with that pid or changes nothing. -/
theorem free_slots_clean (ls : List (Label n)) (hok : Automaton.Each step SparesFree (State.init n) ls) :
    Automaton.Always step (fun s => ∀ p, (s.proc p).state = .unused → Clean (s.proc p)) (State.init n) ls ∧
      Automaton.Each step (fun s l t =>
        (∀ i op, writeOf s l = some (i, op) →
          (∃ pid tf pt, op = .allocproc pid tf pt ∨ op = .userinit pid tf pt) → (t.proc i).killed = false) ∧
        ∀ pid i st, s.code l.1 = .visit (.kkill pid) i :: st →
          (t.code l.1 = .sysret 0 :: st ∧ (s.proc i).state ≠ .unused ∧ (s.proc i).pid = pid) ∨
            (t.code l.1 = scanNext (.kkill pid) i st ∧ t.proc = s.proc)) (State.init n) ls := by
  have hinv := freeOk_of_each hok
  refine ⟨hinv.imp fun s hs => hs.2.clean, (hok.and_always hinv).imp ?_⟩
  rintro s ⟨c, ch⟩ t hstep ⟨⟨hs, hf⟩, hq⟩
  have hi := inv_of_reachable hs
  exact ⟨fun i op hw hop => hf.not_killed hi hstep hw hop, fun pid i st hcode => hf.kkill hi hstep hq hcode⟩

theorem sparesFree_of_idle (s : State n) (l : Label n) (t : State n) (_ : step s l = some t)
    (h : s.code l.1 = []) : SparesFree s l t := by
  simp [SparesFree, h]

/-- The first process, from `forkret()` on, kills itself. -/
def initKills : List (Label 1) := [(0, .run), (0, .kill 1), (0, .run), (0, .run)]

theorem free_slots_clean_initKills : ∃ (ls : List (Label 1)) (t : State 1),
    Automaton.run step (State.init 1) ls = some t ∧ t.code 0 = [.sysret 0] ∧ (t.proc 0).killed = true ∧
      ∀ p, (t.proc p).state = .unused → Clean (t.proc p) := by
  have hboot : Automaton.Path step SparesFree (State.init 1) booted :=
    ⟨_, Automaton.run_eq_runD (by decide), by decide⟩
  have hpass : Automaton.Path step SparesFree booted started :=
    (Ready.idle_pass (by decide) (by decide) reachable_booted).imp sparesFree_of_idle
  have hkill : Automaton.Path step SparesFree started (Automaton.runD step started initKills) :=
    ⟨_, Automaton.run_eq_runD (by decide), by decide⟩
  obtain ⟨ls, hrun, hok⟩ := (hboot.trans hpass).trans hkill
  exact ⟨ls, _, hrun, by decide, by decide, (free_slots_clean ls hok).1.last hrun⟩

/-- The first process calls `kill(0)`. -/
def killsZero : List (Label 1) := [(0, .run), (0, .kill 0)] ++ List.replicate 4 (0, .run)

/-- It returns, and forks a child into the first free slot. -/
def thenForks : List (Label 1) := [(0, .run), (0, .fork), (0, .run), (0, .run), (0, .run), (0, .alloc 1 1)]

/-- **`kill(0)` returns 0 with no process of pid 0, and poisons a free slot:** the next child starts killed. -/
theorem kill_zero_poisons : ∃ s t : State 1, Reachable s ∧ s.code 0 = [.sysret 0] ∧
    (∀ p, (s.proc p).state ≠ .unused → (s.proc p).pid ≠ 0) ∧
    (s.proc 1).state = .unused ∧ (s.proc 1).killed = true ∧
    Automaton.run step s thenForks = some t ∧ (t.proc 1).state = .used ∧ (t.proc 1).killed = true := by
  refine ⟨Automaton.runD step started killsZero,
    Automaton.runD step (Automaton.runD step started killsZero) thenForks,
    Automaton.Reachable.trans reachable_started (Automaton.run_eq_runD (by decide)), ?_⟩
  refine ⟨by decide, by decide, by decide, by decide,
    Automaton.run_eq_runD (by decide), by decide, by decide⟩

end Xv6
