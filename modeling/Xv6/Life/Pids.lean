import Xv6.Proc.Code
import Xv6.Proc.Fields

/-!
# Process ids, and the priority of a pid

* `handedOut s ls` : how many pids `allocpid()` hands out in a run;
* `PidsOk s` : the pids of the slots in use are below `nextpid`, positive, and distinct;
* `Table.ksetpriority`, `Table.kgetpriority` : the calls on a table that nobody else writes to;
* `setpriority_alone`, `getpriority_alone` : the machine does that when no other CPU takes a step meanwhile;
* `priority_register` : the calls are a register for each pid in use.
-/

namespace Xv6
open Automaton Function

variable {n : Nat} {s t : State n} {c : Fin n} {i : Slot} {op : Op}

/-! ## Pids -/

/-- The step calls `allocpid()`. -/
def allocsPid (s : State n) (l : Label n) : Bool := (next s l.1 l.2).any fun r => r.1.allocpid

def handedOut : State n → List (Label n) → Nat := tally step fun s l _ => if allocsPid s l then 1 else 0

/-- The writes that give a slot a pid. -/
def Op.takesPid : Op → Bool
  | .allocproc _ _ _ | .userinit _ _ _ => true
  | _ => false

structure PidsOk (s : State n) : Prop where
  pos : ∀ i, (s.proc i).state ≠ .unused → 0 < (s.proc i).pid
  lt : ∀ i, (s.proc i).state ≠ .unused → (s.proc i).pid < s.nextpid
  inj : ∀ i j, (s.proc i).state ≠ .unused → (s.proc j).state ≠ .unused → (s.proc i).pid = (s.proc j).pid → i = j

theorem exec_takesPid {me : Option Slot} {ch : Choice} {st st' : List Frame} {e : Effect}
    (h : ExecCase s c me ch st e st') (hw : e.write = some (i, op)) (hop : op.takesPid = true) :
    e.allocpid = true := by
  rcases exec_writes h hw with ⟨-, -, sz, pt, rfl⟩ | ⟨f, r, rfl, hf⟩
  · cases hop
  · cases hf with
    | allocproc hme =>
      cases h with
      | own hme' h =>
        simp only [own] at h
        repeat' (split at h)
        all_goals cases h
        all_goals first | rfl | cases hw
    | _ => cases hop

/-- A pid is given to a slot only where `allocpid()` is called. -/
theorem allocsPid_of_takesPid {ch : Choice} (hw : writeOf s (c, ch) = some (i, op)) (hop : op.takesPid = true) :
    allocsPid s (c, ch) = true := by
  obtain ⟨⟨e, k⟩, hn, hw⟩ := Option.bind_eq_some_iff.mp hw
  have hpid : e.allocpid = true := by
    cases next_case hn with
    | boot => rfl
    | irqExec _ _ h => exact exec_takesPid h hw hop
    | thread _ _ h => exact exec_takesPid h hw hop
    | visit =>
      cases hw
      cases hop
    | dispatch =>
      cases hw
      cases hop
    | start => cases hw
    | pass => cases hw
    | irqTake => cases hw
    | scan => cases hw
    | select => cases hw
    | skip => cases hw
    | swtch => cases hw
    | schedPanic => cases hw
    | interrupt => cases hw
    | back => cases hw
    | wfi => cases hw
  rw [allocsPid, hn]
  exact hpid

theorem nextpid_step {l : Label n} (h : step s l = some t) :
    t.nextpid = if allocsPid s l then nextPid s.nextpid else s.nextpid := by
  obtain ⟨⟨e, k⟩, hn, rfl⟩ := Option.map_eq_some_iff.mp h
  have hmove : ((s.apply l.1 e).move l.1 k).nextpid = (s.apply l.1 e).nextpid := by
    cases k <;> rfl
  rw [hmove, allocsPid, hn]
  rfl

theorem allocproc_pid {pid : Int} {tf pt : Nat} {p : Proc} (h : (allocproc pid tf pt p).2 = true) :
    (allocproc pid tf pt p).1.pid = pid := by
  unfold allocproc at h ⊢
  dsimp only at h ⊢
  split_ifs at h ⊢
  rfl

/-- The writes and the pid of the slot that is written to. -/
theorem TableWrite.pid (hw : TableWrite s c i op) (hlive : (op.apply (s.proc i)).state ≠ .unused) :
    ((s.proc i).state ≠ .unused ∧ (op.apply (s.proc i)).pid = (s.proc i).pid) ∨
      ((op.apply (s.proc i)).pid = s.nextpid ∧ op.takesPid = true) := by
  cases hw with
  | visit _ =>
    rw [Op.apply, schedulerVisit_state] at hlive
    exact .inl ⟨hlive, by rw [Op.apply, schedulerVisit_eq]⟩
  | dispatch _ _ hstate => exact .inl ⟨by simp [hstate], rfl⟩
  | @userinit tf pt _ _ hok => exact .inr ⟨allocproc_pid hok, rfl⟩
  | leave _ hstate hop =>
    cases hop
    all_goals exact .inl ⟨by simp [hstate], rfl⟩
  | self _ hstate hop =>
    cases hop
    all_goals exact .inl ⟨by simp [hstate], rfl⟩
  | scan hop =>
    refine .inl ⟨fun hc => ?_, by cases hop <;> rfl⟩
    rcases hop.state with hs | ⟨hs, -⟩
    · exact hlive (hs.trans hc)
    · rw [hc] at hs
      cases hs
  | @allocproc _ tf pt => exact .inr ⟨allocproc_pid (by simpa [Op.apply, allocproc_state] using hlive), rfl⟩
  | inherit _ hstate => exact .inl ⟨by simp [hstate], rfl⟩
  | forkfail => exact absurd rfl hlive
  | setParent _ _ hstate => exact .inl ⟨by simp [hstate], rfl⟩
  | publish hstate => exact .inl ⟨by simp [hstate], rfl⟩
  | reparent => exact .inl ⟨hlive, rfl⟩
  | reap => exact absurd rfl hlive

theorem nextPid_eq {pid : Int} (hpos : 0 < pid) (hlt : pid < 2 ^ 31 - 1) : nextPid pid = pid + 1 := by
  rw [nextPid, Int.bmod_eq_of_le (by omega) (by omega)]

/-- **A step keeps the pids apart**, as long as `nextpid` does not wrap around. -/
theorem PidsOk.step {l : Label n} (hi : Inv s) (h : step s l = some t) (hp : PidsOk s) (hpos : 0 < s.nextpid)
    (hwrap : allocsPid s l = true → s.nextpid < 2 ^ 31 - 1) : PidsOk t := by
  obtain ⟨c, ch⟩ := l
  have hnext := nextpid_step h
  have hmono : s.nextpid ≤ t.nextpid := by
    rw [hnext]
    split
    · rw [nextPid_eq hpos (hwrap ‹_›)]
      omega
    · exact Int.le_refl _
  -- a slot in use has kept its pid, or has just been given the value of `nextpid`
  have hold : ∀ i, (t.proc i).state ≠ .unused →
      ((s.proc i).state ≠ .unused ∧ (t.proc i).pid = (s.proc i).pid) ∨
        ((t.proc i).pid = s.nextpid ∧ s.nextpid < t.nextpid ∧ ∀ j ≠ i, t.proc j = s.proc j) := by
    intro i hlive
    rcases hi.table_step h with ⟨-, htab⟩ | ⟨k, op, hwr, htw, htab⟩
    · rw [htab] at hlive ⊢
      exact .inl ⟨hlive, rfl⟩
    · by_cases hik : i = k
      · subst hik
        have hrest : ∀ j ≠ i, t.proc j = s.proc j := fun j hj => by rw [htab, update_of_ne hj]
        have hself : t.proc i = op.apply (s.proc i) := by rw [htab, update_self]
        rw [hself] at hlive ⊢
        rcases htw.pid hlive with hsame | ⟨hpid, hop⟩
        · exact .inl hsame
        · have halloc := allocsPid_of_takesPid hwr hop
          refine .inr ⟨hpid, ?_, hrest⟩
          rw [hnext, if_pos halloc, nextPid_eq hpos (hwrap halloc)]
          omega
      · rw [htab, update_of_ne hik] at hlive ⊢
        exact .inl ⟨hlive, rfl⟩
  refine ⟨fun i hlive => ?_, fun i hlive => ?_, fun i j hlive hlive' heq => ?_⟩
  · rcases hold i hlive with ⟨hs, hpid⟩ | ⟨hpid, -⟩
    · rw [hpid]
      exact hp.pos i hs
    · rwa [hpid]
  · rcases hold i hlive with ⟨hs, hpid⟩ | ⟨hpid, hlt, -⟩
    · rw [hpid]
      exact Int.lt_of_lt_of_le (hp.lt i hs) hmono
    · rwa [hpid]
  · by_contra hne
    rcases hold i hlive with ⟨hs, hpid⟩ | ⟨hpid, -, hrest⟩
    · rcases hold j hlive' with ⟨hs', hpid'⟩ | ⟨hpid', -, -⟩
      · exact hne (hp.inj i j hs hs' (by rw [← hpid, heq, hpid']))
      · have hlt := hp.lt i hs
        omega
    · rw [hrest j (Ne.symm hne)] at hlive' heq
      have hlt := hp.lt j hlive'
      omega

theorem pidsOk_init (n : Nat) : PidsOk (State.init n) :=
  ⟨fun _ h => absurd rfl h, fun _ h => absurd rfl h, fun _ _ h => absurd rfl h⟩

/-- **Pids in a run** that hands out fewer than `2 ^ 31 - 1` of them. -/
theorem pidsOk_run {ls : List (Label n)} (hs : Reachable s) (hp : PidsOk s) (hpos : 0 < s.nextpid)
    (h : run step s ls = some t) (hfew : s.nextpid + handedOut s ls < 2 ^ 31) : PidsOk t := by
  induction ls generalizing s with
  | nil =>
    cases h
    exact hp
  | cons l ls ih =>
    obtain ⟨u, hu, h⟩ := run_cons_eq_some.mp h
    rw [handedOut, tally_cons hu, ← handedOut] at hfew
    have hnext := nextpid_step hu
    have hpu := hp.step (inv_of_reachable hs) hu hpos fun ha => by
      rw [if_pos ha] at hfew
      omega
    by_cases ha : allocsPid s l = true
    · rw [if_pos ha] at hnext hfew
      rw [nextPid_eq hpos (by omega)] at hnext
      exact ih (hs.next hu) hpu (by omega) h (by omega)
    · rw [if_neg ha] at hnext hfew
      exact ih (hs.next hu) hpu (by omega) h (by omega)

/-! ## The calls on a table -/

abbrev Table := Slot → Proc

/-- A scan of the slots, up to the one at which the call returns. -/
def Job.scan (j : Job) : List Slot → Table → Table × Option Int
  | [], tab => (tab, none)
  | i :: is, tab =>
    let r := j.body (tab i)
    let tab' := tableAfter tab (r.1.map fun op => (i, op))
    if r.2.isSome then (tab', r.2) else j.scan is tab'

def Table.ksetpriority (pid priority : Int) (tab : Table) : Table × Int :=
  if h : priorityValid priority then
    if 0 < pid then
      let r := (Job.ksetpriority pid ⟨priority, h⟩).scan (List.finRange nproc) tab
      (r.1, r.2.getD (-1))
    else (tab, -1)
  else (tab, -1)

def Table.kgetpriority (pid : Int) (tab : Table) : Table × Int :=
  if 0 < pid then
    let r := (Job.kgetpriority pid).scan (List.finRange nproc) tab
    (r.1, r.2.getD (-1))
  else (tab, -1)

/-- The slot that a pid is looked for in. -/
def Table.At (tab : Table) (pid : Int) (i : Slot) : Prop := (tab i).state ≠ .unused ∧ (tab i).pid = pid

section Scan
variable {tab : Table} {j : Job} {pid : Int} {i : Slot} {is : List Slot} {v : Int}

/-- The scan passes over the slots that the call leaves alone. -/
theorem Job.scan_skip {js : List Slot} (h : ∀ i ∈ js, j.body (tab i) = (none, none)) :
    j.scan (js ++ is) tab = j.scan is tab := by
  induction js with
  | nil => rfl
  | cons i js ih =>
    rw [List.cons_append, Job.scan, h i List.mem_cons_self]
    exact ih fun i hi => h i (List.mem_cons_of_mem _ hi)

theorem Job.scan_none (h : ∀ i ∈ is, j.body (tab i) = (none, none)) : j.scan is tab = (tab, none) := by
  rw [← List.append_nil is, Job.scan_skip h]
  rfl

/-- The scan stops at the first slot at which the call returns. -/
theorem Job.scan_stop (hi : i ∈ is) (h : ∀ k ∈ is, k ≠ i → j.body (tab k) = (none, none))
    (hv : (j.body (tab i)).2 = some v) :
    j.scan is tab = (tableAfter tab ((j.body (tab i)).1.map fun op => (i, op)), some v) := by
  induction is with
  | nil => cases hi
  | cons k is ih =>
    by_cases hk : k = i
    · subst hk
      rw [Job.scan, hv]
      rfl
    · have hskip : j.scan ([k] ++ is) tab = j.scan is tab := Job.scan_skip fun x hx => by
        rw [List.mem_singleton.mp hx]
        exact h k List.mem_cons_self hk
      rw [List.singleton_append] at hskip
      rw [hskip]
      exact ih ((List.mem_cons.mp hi).resolve_left (Ne.symm hk)) fun x hx => h x (List.mem_cons_of_mem _ hx)

theorem Table.ksetpriority_at (hpid : 0 < pid) (hv : priorityValid v) (hi : At tab pid i)
    (honly : ∀ k, At tab pid k → k = i) :
    Table.ksetpriority pid v tab = (update tab i { tab i with priority := v, waitTicks := 0 }, 0) := by
  have hbody : (Job.ksetpriority pid ⟨v, hv⟩).body (tab i) = (some (.ksetpriority v), some 0) := if_pos hi
  have hscan := Job.scan_stop (j := .ksetpriority pid ⟨v, hv⟩) (List.mem_finRange i)
    (fun k _ hk => if_neg fun hat => hk (honly k hat)) (congrArg Prod.snd hbody)
  rw [hbody] at hscan
  rw [Table.ksetpriority, dif_pos hv, if_pos hpid, hscan]
  rfl

theorem Table.ksetpriority_none (h : ¬ (priorityValid v ∧ ∃ i, At tab pid i)) :
    Table.ksetpriority pid v tab = (tab, -1) := by
  rw [Table.ksetpriority]
  split
  · next hv =>
      have hscan : (Job.ksetpriority pid ⟨v, hv⟩).scan (List.finRange nproc) tab = (tab, none) :=
        Job.scan_none fun i _ => if_neg fun hat => h ⟨hv, i, hat⟩
      split
      · rw [hscan]
        rfl
      · rfl
  · rfl

theorem Table.kgetpriority_at (hpid : 0 < pid) (hi : At tab pid i) (honly : ∀ k, At tab pid k → k = i) :
    Table.kgetpriority pid tab = (tab, (tab i).priority) := by
  have hbody : (Job.kgetpriority pid).body (tab i) = (none, some (tab i).priority) := if_pos hi
  have hscan := Job.scan_stop (j := .kgetpriority pid) (List.mem_finRange i)
    (fun k _ hk => if_neg fun hat => hk (honly k hat)) (congrArg Prod.snd hbody)
  rw [hbody] at hscan
  rw [Table.kgetpriority, if_pos hpid, hscan]
  rfl

theorem Table.kgetpriority_none (h : ¬ ∃ i, At tab pid i) : Table.kgetpriority pid tab = (tab, -1) := by
  by_cases hpid : 0 < pid
  · have hscan : (Job.kgetpriority pid).scan (List.finRange nproc) tab = (tab, none) :=
      Job.scan_none fun i _ => if_neg fun hat => h ⟨i, hat⟩
    rw [Table.kgetpriority, if_pos hpid, hscan]
    rfl
  · exact if_neg hpid

end Scan

/-! ## The calls on the machine -/

section Alone
variable {s : State n} {c : Fin n} {p : Slot}

/-- A step of the thread of process `p` to which no interrupt comes. -/
theorem step_alone (ch : Choice) {e : Effect} {st' : List Frame} (hloc : (s.cpu c).loc = .switched p)
    (hsched : ∀ r, s.stack p ≠ .sched :: r) (hint : interrupt (some p) (s.stack p) ch = none)
    (h : exec s c (some p) ch (s.stack p) = some (e, st')) :
    step s (c, ch) = some ((s.apply c e).move c (.thread p st')) := by
  have hnext : nextThread s c ch p = some (e, .thread p st') := by
    unfold nextThread
    split
    · exact absurd ‹_› (hsched _)
    · rw [hint, ite_self, h]
      rfl
  simp only [step, next, hloc, hnext, Option.map_some]

/-- Where a scan leaves its caller. -/
def Job.finish (j : Job) (st : List Frame) : Option Int → List Frame
  | some v => .sysret v :: st
  | none =>
    match j with
    | .wakeup _ => st
    | _ => .sysret (-1) :: st

/-- A turn of a scan takes the lock and gives it back. -/
theorem visit_alone {j : Job} {i : Slot} {st : List Frame} (hloc : (s.cpu c).loc = .switched p)
    (hst : s.stack p = .want (.proc i) :: .visit j i :: st) (hfree : s.lock (.proc i) = none) :
    ∃ t, run step s [(c, .run), (c, .run)] = some t ∧ (t.cpu c).loc = .switched p ∧ t.lock = s.lock ∧
      t.proc = tableAfter s.proc ((j.body (s.proc i)).1.map fun op => (i, op)) ∧
      t.stack p = (visit (s.proc i) j i st).2 := by
  have hacquire : exec s c (some p) .run (s.stack p) = some ({ acquire := some (.proc i) }, .visit j i :: st) := by
    rw [hst, exec, hfree]
  have hfirst := step_alone .run hloc (fun r hr => by rw [hst] at hr; cases hr) rfl hacquire
  obtain ⟨u, hu⟩ : ∃ u, u = (s.apply c { acquire := some (.proc i) }).move c (.thread p (.visit j i :: st)) := ⟨_, rfl⟩
  rw [← hu] at hfirst
  have huloc : (u.cpu c).loc = .switched p := by
    rw [hu, State.move, State.setStack, apply_cpu_self]
    exact hloc
  have hust : u.stack p = .visit j i :: st := by rw [hu, State.move, setStack_stack_self]
  have huproc : u.proc = s.proc := by rw [hu, move_proc, apply_proc_none _ _ _ rfl]
  have hulock : u.lock = Owner.update s.lock c (some (.proc i)) [] := by rw [hu, move_lock, apply_lock]
  have hvisit : exec u c (some p) .run (u.stack p) =
      some ((visit (s.proc i) j i st).1, (visit (s.proc i) j i st).2) := by
    rw [hust, exec, huproc]
  have hsecond := step_alone .run huloc (fun r hr => by rw [hust] at hr; cases hr) rfl hvisit
  refine ⟨_, run_cons_eq_some.mpr ⟨u, hfirst, run_single hsecond⟩, ?_, ?_, ?_, ?_⟩
  · rw [State.move, State.setStack, apply_cpu_self]
    exact huloc
  · rw [move_lock, apply_lock, hulock]
    exact Owner.update_acquire_release hfree
  · rw [move_proc, ← huproc]
    rfl
  · rw [State.move, setStack_stack_self]

theorem drop_finRange (i : Slot) : (List.finRange nproc).drop i = i :: (List.finRange nproc).drop (i.val + 1) := by
  have hlen : i.val < (List.finRange nproc).length := by
    rw [List.length_finRange]
    exact i.isLt
  rw [List.drop_eq_getElem_cons hlen, List.getElem_finRange]
  rfl

/-- **A scan during which no other CPU takes a step.** -/
theorem scan_alone {j : Job} {i : Slot} {st : List Frame} (hloc : (s.cpu c).loc = .switched p)
    (hst : s.stack p = .want (.proc i) :: .visit j i :: st) (hfree : ∀ k, s.lock (.proc k) = none) :
    ∃ k t, run step s (List.replicate k (c, .run)) = some t ∧
      t.proc = (j.scan ((List.finRange nproc).drop i) s.proc).1 ∧
      t.stack p = j.finish st (j.scan ((List.finRange nproc).drop i) s.proc).2 := by
  -- on the slots that are left
  induction hm : nproc - i.val generalizing s i with
  | zero =>
    have hlt := i.isLt
    omega
  | succ m ih =>
    obtain ⟨t, hrun, htloc, htlock, htproc, htst⟩ := visit_alone hloc hst (hfree i)
    rw [drop_finRange, Job.scan]
    rw [← htproc]
    unfold visit at htst
    dsimp only at htst
    split at htst
    · rename_i v hv
      rw [hv, Option.isSome_some, if_pos rfl]
      exact ⟨2, t, hrun, rfl, htst⟩
    · rename_i hv
      rw [hv, Option.isSome_none, if_neg Bool.false_ne_true]
      unfold scanNext at htst
      split at htst
      · rename_i hnext
        obtain ⟨k, u, hu, huproc, hust⟩ := ih htloc htst (fun k => htlock ▸ hfree k) (by
          dsimp only
          omega)
        refine ⟨2 + k, u, ?_, huproc, hust⟩
        rw [List.replicate_add]
        exact run_trans hrun hu
      · rename_i hlast
        rw [List.drop_eq_nil_of_le (by rw [List.length_finRange]; omega), Job.scan]
        exact ⟨2, t, hrun, rfl, htst⟩

/-- A system call that scans the table. -/
theorem call_alone (ch : Choice) (j : Job) (hloc : (s.cpu c).loc = .switched p) (hst : s.stack p = [])
    (hfree : ∀ k, s.lock (.proc k) = none) (hint : interrupt (some p) [] ch = none)
    (henter : enter s.initproc p ch = some ({}, scanFrom j [])) :
    ∃ k t, run step s ((c, ch) :: List.replicate k (c, .run)) = some t ∧
      t.proc = (j.scan (List.finRange nproc) s.proc).1 ∧
      t.stack p = j.finish [] (j.scan (List.finRange nproc) s.proc).2 := by
  have hexec : exec s c (some p) ch (s.stack p) = some ({}, scanFrom j []) := by
    rw [hst, exec, Option.bind_some, henter]
  have hstep := step_alone ch hloc (fun r hr => by rw [hst] at hr; cases hr) (by rw [hst, hint]) hexec
  obtain ⟨u, hu⟩ : ∃ u, u = (s.apply c {}).move c (.thread p (scanFrom j [])) := ⟨_, rfl⟩
  rw [← hu] at hstep
  have huloc : (u.cpu c).loc = .switched p := by
    rw [hu, State.move, State.setStack, apply_cpu_self]
    exact hloc
  have hust : u.stack p = scanFrom j [] := by rw [hu, State.move, setStack_stack_self]
  have hulock : u.lock = s.lock := by rw [hu, move_lock, apply_lock, Owner.update_none_nil]
  have huproc : u.proc = s.proc := by rw [hu, move_proc, apply_proc_none _ _ _ rfl]
  obtain ⟨k, t, hrun, htproc, htst⟩ := scan_alone huloc hust fun k => hulock ▸ hfree k
  rw [huproc, Fin.val_zero, List.drop_zero] at htproc htst
  exact ⟨k, t, run_cons_eq_some.mpr ⟨u, hstep, hrun⟩, htproc, htst⟩

/-- A system call that returns -1 at once. -/
theorem refused_alone (ch : Choice) (hloc : (s.cpu c).loc = .switched p) (hst : s.stack p = [])
    (hint : interrupt (some p) [] ch = none) (henter : enter s.initproc p ch = some ({}, [.sysret (-1)])) :
    ∃ k t, run step s ((c, ch) :: List.replicate k (c, .run)) = some t ∧ t.proc = s.proc ∧
      t.stack p = [.sysret (-1)] := by
  have hexec : exec s c (some p) ch (s.stack p) = some ({}, [.sysret (-1)]) := by
    rw [hst, exec, Option.bind_some, henter]
  have hstep := step_alone ch hloc (fun r hr => by rw [hst] at hr; cases hr) (by rw [hst, hint]) hexec
  refine ⟨0, _, run_single hstep, ?_, ?_⟩
  · rw [move_proc, apply_proc_none _ _ _ rfl]
  · rw [State.move, setStack_stack_self]

/-- **`setpriority()` during which no other CPU takes a step.** -/
theorem setpriority_alone (pid v : Int) (hloc : (s.cpu c).loc = .switched p) (hst : s.stack p = [])
    (hfree : ∀ k, s.lock (.proc k) = none) :
    ∃ k t, run step s ((c, .setpriority pid v) :: List.replicate k (c, .run)) = some t ∧
      t.proc = (Table.ksetpriority pid v s.proc).1 ∧ t.stack p = [.sysret (Table.ksetpriority pid v s.proc).2] := by
  by_cases hc : 0 < pid ∧ priorityValid v
  · obtain ⟨k, t, hrun, htproc, htst⟩ := call_alone (.setpriority pid v) (.ksetpriority pid ⟨v, hc.2⟩) hloc hst
      hfree rfl (by rw [enter, dif_pos hc])
    rw [Table.ksetpriority, dif_pos hc.2, if_pos hc.1]
    refine ⟨k, t, hrun, htproc, htst.trans ?_⟩
    dsimp only
    cases ((Job.ksetpriority pid ⟨v, hc.2⟩).scan (List.finRange nproc) s.proc).2 with
    | none => rfl
    | some r => rfl
  · have hrefused : Table.ksetpriority pid v s.proc = (s.proc, -1) := by
      rw [Table.ksetpriority]
      split
      · next hv => exact if_neg fun hpid => hc ⟨hpid, hv⟩
      · rfl
    rw [hrefused]
    exact refused_alone _ hloc hst rfl (by rw [enter, dif_neg hc])

/-- **`getpriority()` during which no other CPU takes a step.** -/
theorem getpriority_alone (pid : Int) (hloc : (s.cpu c).loc = .switched p) (hst : s.stack p = [])
    (hfree : ∀ k, s.lock (.proc k) = none) :
    ∃ k t, run step s ((c, .getpriority pid) :: List.replicate k (c, .run)) = some t ∧
      t.proc = (Table.kgetpriority pid s.proc).1 ∧ t.stack p = [.sysret (Table.kgetpriority pid s.proc).2] := by
  rw [Table.kgetpriority]
  by_cases hc : 0 < pid
  · obtain ⟨k, t, hrun, htproc, htst⟩ := call_alone (.getpriority pid) (.kgetpriority pid) hloc hst hfree rfl
      (by rw [enter, if_pos hc])
    rw [if_pos hc]
    refine ⟨k, t, hrun, htproc, htst.trans ?_⟩
    dsimp only
    cases ((Job.kgetpriority pid).scan (List.finRange nproc) s.proc).2 with
    | none => rfl
    | some r => rfl
  · rw [if_neg hc]
    exact refused_alone _ hloc hst rfl (by rw [enter, if_neg hc])

end Alone

/-- **The priority of a pid is a register.** -/
theorem priority_register {ls : List (Label n)} (h : run step (State.init n) ls = some s)
    (hfew : handedOut (State.init n) ls < 2 ^ 31 - 1) :
    (∀ i, (s.proc i).state ≠ .unused → 0 < (s.proc i).pid) ∧
    (∀ i k, (s.proc i).state ≠ .unused → (s.proc k).state ≠ .unused → (s.proc i).pid = (s.proc k).pid → i = k) ∧
    ∀ pid : Int,
      (∀ v : Int,
        ((Table.ksetpriority pid v s.proc).2 = 0 ↔ (0 ≤ v ∧ v ≤ 31) ∧ ∃ i, Table.At s.proc pid i) ∧
        (∀ i, 0 ≤ v ∧ v ≤ 31 → Table.At s.proc pid i →
          (Table.ksetpriority pid v s.proc).1 = update s.proc i { s.proc i with priority := v, waitTicks := 0 } ∧
          (Table.kgetpriority pid (Table.ksetpriority pid v s.proc).1).2 = v) ∧
        ((Table.ksetpriority pid v s.proc).2 ≠ 0 → Table.ksetpriority pid v s.proc = (s.proc, -1))) ∧
      ((Table.kgetpriority pid s.proc).2 = -1 ↔ ¬ ∃ i, Table.At s.proc pid i) ∧
      (Table.kgetpriority pid s.proc).1 = s.proc := by
  have hs : Reachable s := ⟨ls, h⟩
  have hp : PidsOk s := by
    have hfirst : (State.init n).nextpid = 1 := rfl
    exact pidsOk_run (.refl _) (pidsOk_init n) (by omega) h (by omega)
  have honly : ∀ {pid i}, Table.At s.proc pid i → 0 < pid ∧ ∀ k, Table.At s.proc pid k → k = i := by
    intro pid i hi
    exact ⟨hi.2 ▸ hp.pos i hi.1, fun k hk => hp.inj k i hk.1 hi.1 (hk.2.trans hi.2.symm)⟩
  refine ⟨hp.pos, hp.inj, fun pid => ⟨fun v => ?_, ?_, ?_⟩⟩
  · by_cases hc : priorityValid v ∧ ∃ i, Table.At s.proc pid i
    · obtain ⟨hv, i, hi⟩ := hc
      have hset := fun k (hk : Table.At s.proc pid k) => Table.ksetpriority_at (honly hk).1 hv hk (honly hk).2
      rw [hset i hi]
      refine ⟨⟨fun _ => ⟨hv, i, hi⟩, fun _ => rfl⟩, fun k _ hk => ?_, fun hne => absurd rfl hne⟩
      obtain rfl := (honly hi).2 k hk
      refine ⟨rfl, ?_⟩
      -- the pids and the states are as before
      have hat : ∀ m, Table.At (update s.proc k { s.proc k with priority := v, waitTicks := 0 }) pid m ↔
          Table.At s.proc pid m := by
        intro m
        by_cases hm : m = k
        · subst hm
          rw [Table.At, update_self]
          rfl
        · rw [Table.At, update_of_ne hm]
          rfl
      rw [Table.kgetpriority_at (honly hk).1 ((hat k).mpr hk) fun m hm => (honly hk).2 m ((hat m).mp hm)]
      rw [update_self]
    · rw [Table.ksetpriority_none hc]
      exact ⟨⟨fun hz : (-1 : Int) = 0 => absurd hz (by decide), fun hz => absurd hz hc⟩, fun i hv hi =>
      absurd ⟨hv, i, hi⟩ hc, fun _ => rfl⟩
  · by_cases hc : ∃ i, Table.At s.proc pid i
    · obtain ⟨i, hi⟩ := hc
      have hvalid := (fieldsOk_of_reachable hs i).valid
      rw [Table.kgetpriority_at (honly hi).1 hi (honly hi).2]
      refine ⟨fun hneg : (s.proc i).priority = -1 => ?_, fun hno => absurd ⟨i, hi⟩ hno⟩
      rw [hneg] at hvalid
      exact absurd hvalid.1 (by decide)
    · rw [Table.kgetpriority_none hc]
      exact ⟨fun _ => hc, fun _ => rfl⟩
  · by_cases hc : ∃ i, Table.At s.proc pid i
    · obtain ⟨i, hi⟩ := hc
      rw [Table.kgetpriority_at (honly hi).1 hi (honly hi).2]
    · rw [Table.kgetpriority_none hc]

theorem priority_register_booted : (Table.ksetpriority 1 5 booted.proc).2 = 0 ∧
    (Table.kgetpriority 1 (Table.ksetpriority 1 5 booted.proc).1).2 = 5 := by
  have hrun : run step (State.init 1) [(0, .alloc 1 1), (0, .run)] = some booted := run_eq_runD (by decide)
  obtain ⟨-, -, hcalls⟩ := priority_register hrun (by decide)
  have hat : Table.At booted.proc 1 0 := ⟨by decide, by decide⟩
  obtain ⟨hzero, hset, -⟩ := (hcalls 1).1 5
  exact ⟨hzero.mpr ⟨by decide, 0, hat⟩, (hset 0 (by decide) hat).2⟩

end Xv6
