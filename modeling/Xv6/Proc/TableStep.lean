import Xv6.Proc.Invariant

/-!
# What a step writes to the process table

* `TableWrite s c i op` : a step of CPU `c` may write `op` to slot `i`, with what the code has checked;
* `Inv.table_step` : every step writes nothing to the table, or makes one such write;
* `table_invariant` : the rule for properties of the table alone.
-/

namespace Xv6
open Function

variable {n : Nat}

inductive TableWrite (s : State n) (c : Fin n) : Slot → Op → Prop
  | visit {i : Slot} {best : Int} {found : Bool} (hloc : (s.cpu c).loc = .scanIn i best found) :
      TableWrite s c i .visit
  | dispatch {offset i : Slot} {best : Int} (hloc : (s.cpu c).loc = .selectIn offset best)
      (hidx : i = (s.cpu c).nextIndex + offset) (hstate : (s.proc i).state = .runnable)
      (hbest : (s.proc i).priority = best) : TableWrite s c i .dispatch
  | userinit {tf pt : Nat} (hinit : s.initproc = none) (hstate : (s.proc 0).state = .unused)
      (hok : (allocproc s.nextpid tf pt (s.proc 0)).2 = true) :
      TableWrite s c 0 (.userinit s.nextpid tf pt)
  | leave {p : Slot} {op : Op} (hloc : (s.cpu c).loc = .switched p)
      (hstate : (s.proc p).state = .running) (hop : Leave (s.proc p) op) : TableWrite s c p op
  | self {p : Slot} {op : Op} (hloc : (s.cpu c).loc = .switched p)
      (hstate : (s.proc p).state = .running) (hop : op.Private) : TableWrite s c p op
  | scan {j : Job} {i : Slot} {op : Op} (hop : ScanWrite (s.proc i) j op)
      (hl : .proc i ∈ s.held c) : TableWrite s c i op
  | allocproc {i : Slot} {tf pt : Nat} (hstate : (s.proc i).state = .unused) :
      TableWrite s c i (.allocproc s.nextpid tf pt)
  | inherit {p np : Slot} {priority : Int} (hloc : (s.cpu c).loc = .switched p)
      (hstate : (s.proc np).state = .used) : TableWrite s c np (.inherit priority (s.proc p).sz)
  | forkfail {np : Slot} (hstate : (s.proc np).state = .used) : TableWrite s c np .forkfail
  | setParent {p np : Slot} (hloc : (s.cpu c).loc = .switched p) (hrun : (s.proc p).state = .running)
      (hstate : (s.proc np).state = .used) (hw : .wait ∈ s.held c) : TableWrite s c np (.setParent p)
  | publish {np : Slot} (hstate : (s.proc np).state = .used) : TableWrite s c np .publish
  | reparent {p pp : Slot} (hloc : (s.cpu c).loc = .switched p) (hrun : (s.proc p).state = .running)
      (hpp : (s.proc pp).parent = some p) (hw : .wait ∈ s.held c) :
      TableWrite s c pp (.reparent s.initproc)
  | reap {p pp : Slot} (hloc : (s.cpu c).loc = .switched p) (hrun : (s.proc p).state = .running)
      (hstate : (s.proc pp).state = .zombie) (hl : .proc pp ∈ s.held c) (hw : .wait ∈ s.held c) :
      TableWrite s c pp .reap

theorem allocproc_parent (pid : Int) (tf pt : Nat) (p : Proc) : (allocproc pid tf pt p).1.parent = p.parent := by
  unfold allocproc
  dsimp only
  split_ifs <;> rfl

/-- The writes that change a parent link. -/
theorem Op.apply_parent (op : Op) (p : Proc) : (op.apply p).parent = p.parent ∨ (∃ q, op = .setParent q) ∨
    (∃ q, op = .reparent q) ∨ op = .reap := by
  cases op with
  | visit => exact Or.inl (by rw [Op.apply, schedulerVisit_eq])
  | allocproc pid tf pt => exact Or.inl (allocproc_parent pid tf pt p)
  | userinit pid tf pt => exact Or.inl (allocproc_parent pid tf pt p)
  | setParent q => exact Or.inr (Or.inl ⟨q, rfl⟩)
  | reparent q => exact Or.inr (Or.inr (Or.inl ⟨q, rfl⟩))
  | reap => exact Or.inr (Or.inr (Or.inr rfl))
  | _ => exact Or.inl rfl

section Step
variable {s t : State n} {c : Fin n} {ch : Choice} {i : Slot} {op : Op}

theorem Inv.tableWrite_thread (hi : Inv s) {p : Slot} {e : Effect} {st' : List Frame}
    (hloc : (s.cpu c).loc = .switched p) (hs : .sched ∉ s.stack p)
    (hw : Wrote s (some p) (s.stack p) st' e.write e.spawn) (hwr : e.write = some (i, op)) : TableWrite s c i op := by
  have hrun := hi.running hloc hs
  have hheld := held_switched hloc
  rw [hwr] at hw
  generalize e.spawn = sp at hw
  cases hw with
  | leave hme hop => exact Option.some.inj hme ▸ .leave hloc hrun (Option.some.inj hme ▸ hop)
  | self hme hop => exact Option.some.inj hme ▸ .self hloc hrun hop
  | scan hop hl => exact .scan hop (hheld ▸ hl)
  | alloc _ hstate => exact .allocproc hstate
  | allocFail _ hstate => exact .allocproc hstate
  | inherit hme hnp => exact Option.some.inj hme ▸ .inherit hloc (hi.forkUsed p _ hnp)
  | forkFail _ _ _ hk => exact .forkfail (hi.forkUsed p _ (hk ▸ List.mem_cons_self))
  | setParent hme hnp hl =>
    exact Option.some.inj hme ▸ .setParent hloc hrun (hi.forkUsed p _ hnp) (hheld ▸ hl)
  | publish _ _ _ hk => exact .publish (hi.forkUsed p _ (hk ▸ List.mem_cons_self))
  | reparent hme hpp hl =>
    obtain rfl := Option.some.inj hme
    exact .reparent hloc hrun hpp (hheld ▸ hl)
  | reap _ hstate hl hwait => exact .reap hloc hrun hstate (hheld ▸ hl) (hheld ▸ hwait)

theorem Inv.tableWrite (hi : Inv s) {e : Effect} {k : Ctl} (h : NextCase s c ch e k) (hwr : e.write = some (i, op)) :
    TableWrite s c i op := by
  cases h with
  | boot _ hinit hfree hok =>
    cases hwr
    exact .userinit hinit hfree hok
  | visit hloc =>
    cases hwr
    exact .visit hloc
  | dispatch hloc hidx hstate hbest =>
    cases hwr
    exact .dispatch hloc hidx hstate hbest
  | irqExec hloc _ h =>
    have hw := exec_wrote (hi.irqSched c) h
    rw [hwr] at hw
    generalize e.spawn = sp at hw
    cases hw with
    | scan hop hl => exact .scan hop (by simpa [State.held, hloc] using hl)
    | leave hme => cases hme
    | self hme => cases hme
    | alloc hme => cases hme
    | allocFail hme => cases hme
    | inherit hme => cases hme
    | forkFail hme => cases hme
    | setParent hme => cases hme
    | publish hme => cases hme
    | reparent hme => cases hme
    | reap hme => cases hme
  | thread hloc hst h =>
    have hs := hi.not_sched hloc hst (Or.inr fun r hr => by
      rw [hr] at h
      exact h.head_ne_panic)
    exact hi.tableWrite_thread hloc hs (exec_wrote hs h) hwr
  | start => cases hwr
  | pass => cases hwr
  | irqTake => cases hwr
  | scan => cases hwr
  | select => cases hwr
  | skip => cases hwr
  | swtch => cases hwr
  | schedPanic => cases hwr
  | interrupt => cases hwr
  | back => cases hwr
  | wfi => cases hwr

/-- **The writes of a step.** -/
theorem Inv.table_step (hi : Inv s) (h : Xv6.step s (c, ch) = some t) :
    (writeOf s (c, ch) = none ∧ t.proc = s.proc) ∨
      ∃ i op, writeOf s (c, ch) = some (i, op) ∧ TableWrite s c i op ∧
        t.proc = update s.proc i (op.apply (s.proc i)) := by
  have htab := step_table h
  obtain ⟨e, k, hcase, -, hwrite⟩ := step_case h
  rw [hwrite] at htab ⊢
  cases hw : e.write with
  | none =>
    rw [hw] at htab
    exact Or.inl ⟨rfl, htab⟩
  | some w =>
    rw [hw] at htab
    exact Or.inr ⟨w.1, w.2, rfl, hi.tableWrite hcase hw, htab⟩

/-- One slot in a step: nothing is written to it, or one write is. -/
theorem Inv.slot_step (hi : Inv s) (h : Xv6.step s (c, ch) = some t) (w : Slot) :
    ((∀ op, writeOf s (c, ch) ≠ some (w, op)) ∧ t.proc w = s.proc w) ∨
      ∃ op, writeOf s (c, ch) = some (w, op) ∧ TableWrite s c w op ∧ t.proc w = op.apply (s.proc w) := by
  rcases hi.table_step h with ⟨hno, htab⟩ | ⟨i, op, hwr, htw, htab⟩
  · refine Or.inl ⟨fun op => ?_, by rw [htab]⟩
    rw [hno]
    simp
  · by_cases hw : w = i
    · subst hw
      exact Or.inr ⟨op, hwr, htw, by rw [htab, update_self]⟩
    · refine Or.inl ⟨fun op' h' => ?_, by rw [htab, update_of_ne hw]⟩
      rw [hwr] at h'
      cases h'
      exact hw rfl

theorem Inv.tableWrite_of (hi : Inv s) (h : Xv6.step s (c, ch) = some t) (hw : writeOf s (c, ch) = some (i, op)) :
    TableWrite s c i op ∧ t.proc i = op.apply (s.proc i) := by
  rcases hi.slot_step h i with ⟨hno, -⟩ | ⟨op', hw', htw, hq⟩
  · exact absurd hw (hno op)
  · rw [hw] at hw'
    cases hw'
    exact ⟨htw, hq⟩

end Step

/-- **The table rule.** What holds of a slot after `procinit()` and is kept by every write holds of
every slot of every reachable state. -/
theorem table_invariant {P : Proc → Prop} (h0 : P procinit)
    (hstep : ∀ (s : State n) (c : Fin n) (i : Slot) (op : Op), Inv s → (∀ p, P (s.proc p)) →
      TableWrite s c i op → P (op.apply (s.proc i))) {s : State n} (h : Reachable s) (p : Slot) :
    P (s.proc p) := by
  refine Automaton.Reachable.invariant (P := fun s : State n => ∀ p, P (s.proc p)) (fun _ => h0) ?_ h p
  rintro s ⟨c, ch⟩ t hs hp ht q
  have hi := inv_of_reachable hs
  rcases hi.slot_step ht q with ⟨-, hq⟩ | ⟨op, -, hw, hq⟩
  · rw [hq]
    exact hp q
  · rw [hq]
    exact hstep s c q op hi hp hw

end Xv6
