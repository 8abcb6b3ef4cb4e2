import Xv6.Proc.Locks

/-!
# What a thread writes

`Wrote s me st st' w sp` lists the writes a step of a thread can make, with what the code knows when
it makes them: which lock it holds, what state it saw, and what becomes of the stack. `children st`
are the slots that a `kfork()` on the stack is still building.
-/

namespace Xv6

variable {n : Nat} {j : Job} {s : State n} {ch : Choice} {st st' : List Frame} {e : Effect}

/-- What the frames of a stack carry, by `g`. -/
def pick {α : Type} (g : Frame → Option α) (st : List Frame) : List α := st.filterMap g

section Pick
variable {α : Type} {g : Frame → Option α} (st : List Frame)

@[simp] theorem pick_nil : pick g [] = [] := rfl

@[simp] theorem pick_cons (f : Frame) : pick g (f :: st) = (g f).toList ++ pick g st := by
  unfold pick
  cases h : g f <;> simp [h]

theorem pick_skips (hg : ∀ f, f.scanning = true → g f = none) : Skips (pick g) :=
  skips fun f st hf => by rw [pick_cons, hg f hf, Option.toList_none, List.nil_append]

end Pick

/-- The slot a frame of `kfork()` is building. -/
def Frame.child : Frame → Option Slot
  | .forkSnapshot np | .forkCopy np _ | .forkParent np _ | .forkPublish np _ => some np
  | _ => none

def children (st : List Frame) : List Slot := pick Frame.child st

theorem Frame.child_scanning (f : Frame) (h : f.scanning = true) : f.child = none := by
  cases f <;> first | rfl | cases h

section Children
variable (st : List Frame)

@[simp] theorem children_nil : children [] = [] := rfl

@[simp] theorem children_cons (f : Frame) : children (f :: st) = f.child.toList ++ children st :=
  pick_cons st f

@[simp] theorem children_skips : Skips children := pick_skips Frame.child_scanning

end Children

@[simp] theorem sched_mem_skips : Skips fun st => Frame.sched ∈ st := mem_skips rfl

/-- The writes with which a running process gives up its CPU. -/
inductive Leave (p : Proc) : Op → Prop
  | yield : Leave p .yield
  | sleep (h : p.chan ≠ .null) : Leave p .sleep
  | kexit (status : Int) : Leave p (.kexit status)

/-- The writes a running process makes to its own slot and keeps running. -/
inductive Op.Private : Op → Prop
  | sleepPrepare {ch : Chan} (h : ch ≠ .null) : Op.Private (.sleepPrepare ch)
  | setkilled : Op.Private .setkilled
  | resize (sz pt : Nat) : Op.Private (.resize sz pt)

/-- The writes of the table scans. -/
inductive ScanWrite (p : Proc) : Job → Op → Prop
  | wakeup {ch : Chan} (h : p.chan = ch) : ScanWrite p (.wakeup ch) .wakeup
  | kkill {pid : Int} (h : p.pid = pid) : ScanWrite p (.kkill pid) .kkill
  | ksetpriority {pid : Int} {v : {v : Int // priorityValid v}} (hs : p.state ≠ .unused)
      (h : p.pid = pid) : ScanWrite p (.ksetpriority pid v) (.ksetpriority v)

theorem scanWrite_of_body {p : Proc} {op : Op} (h : (j.body p).1 = some op) : ScanWrite p j op := by
  cases j
  all_goals simp only [Job.body, wakeup, kkill, ksetpriority, kgetpriority] at h
  all_goals split at h
  all_goals cases h
  case wakeup.isTrue hc => exact .wakeup hc
  case kkill.isTrue hp => exact .kkill hp
  case ksetpriority.isTrue hp => exact .ksetpriority hp.1 hp.2

theorem ScanWrite.state {p : Proc} {op : Op} (h : ScanWrite p j op) :
    (op.apply p).state = p.state ∨ (p.state = .sleeping ∧ (op.apply p).state = .runnable) := by
  cases h with
  | wakeup h => by_cases hs : p.state = .sleeping <;> simp [Op.apply, hs]
  | kkill h => by_cases hs : p.state = .sleeping <;> simp [Op.apply, hs]
  | ksetpriority hs h => exact Or.inl rfl

/-- What a step of a thread writes, and the slot it makes a thread for. -/
inductive Wrote (s : State n) (me : Option Slot) (st st' : List Frame) :
    Option (Slot × Op) → Option Slot → Prop
  | nothing (hs : .sched ∉ st') (hk : children st' = children st) : Wrote s me st st' none none
  | leave {p : Slot} {op : Op} {r : List Frame} (hme : me = some p) (hop : Leave (s.proc p) op)
      (hst : st' = .sched :: r) (hs : .sched ∉ r) (hl : .proc p ∈ locksOf me st')
      (hk : children st' = children st) : Wrote s me st st' (some (p, op)) none
  | self {p : Slot} {op : Op} (hme : me = some p) (hop : op.Private) (hs : .sched ∉ st')
      (hk : children st' = children st) : Wrote s me st st' (some (p, op)) none
  | scan {j : Job} {i : Slot} {op : Op} (hop : ScanWrite (s.proc i) j op)
      (hl : .proc i ∈ locksOf me st) (hs : .sched ∉ st') (hk : children st' = children st) :
      Wrote s me st st' (some (i, op)) none
  | alloc {p i : Slot} {tf pt : Nat} (hme : me = some p) (hstate : (s.proc i).state = .unused)
      (hok : (allocproc s.nextpid tf pt (s.proc i)).2 = true) (hl : .proc i ∈ locksOf me st)
      (hs : .sched ∉ st') (hk : children st' = i :: children st) :
      Wrote s me st st' (some (i, .allocproc s.nextpid tf pt)) (some i)
  | allocFail {p i : Slot} {tf pt : Nat} (hme : me = some p) (hstate : (s.proc i).state = .unused)
      (hok : (allocproc s.nextpid tf pt (s.proc i)).2 = false) (hl : .proc i ∈ locksOf me st)
      (hs : .sched ∉ st') (hk : children st' = children st) :
      Wrote s me st st' (some (i, .allocproc s.nextpid tf pt)) none
  | inherit {np p : Slot} (hme : me = some p) (hnp : np ∈ children st)
      (hl : .proc np ∈ locksOf me st) {priority : Int} (hs : .sched ∉ st')
      (hk : children st' = children st) :
      Wrote s me st st' (some (np, .inherit priority (s.proc p).sz)) none
  | forkFail {p np : Slot} (hme : me = some p) (hl : .proc np ∈ locksOf me st) (hs : .sched ∉ st')
      (hk : children st = np :: children st') : Wrote s me st st' (some (np, .forkfail)) none
  | setParent {np p : Slot} (hme : me = some p) (hnp : np ∈ children st) (hl : .wait ∈ locksOf me st)
      (hs : .sched ∉ st') (hk : children st' = children st) :
      Wrote s me st st' (some (np, .setParent p)) none
  | publish {p np : Slot} (hme : me = some p) (hl : .proc np ∈ locksOf me st) (hs : .sched ∉ st')
      (hk : children st = np :: children st') : Wrote s me st st' (some (np, .publish)) none
  | reparent {p pp : Slot} (hme : me = some p) (hpp : (s.proc pp).parent = some p)
      (hl : .wait ∈ locksOf me st) (hs : .sched ∉ st') (hk : children st' = children st) :
      Wrote s me st st' (some (pp, .reparent s.initproc)) none
  | reap {p pp : Slot} (hme : me = some p) (hstate : (s.proc pp).state = .zombie) (hl : .proc pp ∈ locksOf me st)
      (hw : .wait ∈ locksOf me st) (hs : .sched ∉ st') (hk : children st' = children st) :
      Wrote s me st st' (some (pp, .reap)) none

theorem own_wrote {p : Slot} {f : Frame} (hs : .sched ∉ f :: st) (h : own s p ch st f = some (e, st')) :
    Wrote s (some p) (f :: st) st' e.write e.spawn := by
  have hs' : .sched ∉ st := fun hm => hs (List.mem_cons_of_mem f hm)
  cases f
  all_goals simp only [own] at h
  all_goals repeat' (split at h)
  all_goals cases h
  case yield =>
    exact .leave rfl .yield rfl (by simpa using hs') (by simp [locksOf, Frame.locks, self])
      (by simp [Frame.child])
  case sleep.isTrue hch =>
    exact .leave rfl (.sleep hch) rfl (by simpa using hs') (by simp [locksOf, Frame.locks, self])
      (by simp [Frame.child])
  case exitZombie status =>
    exact .leave rfl (.kexit status) rfl (by simpa using hs')
      (by simp [locksOf, Frame.locks, self]) (by simp [Frame.child])
  case sleepPrepare.isFalse hch => exact .self rfl (.sleepPrepare hch) hs' (by simp [Frame.child])
  case setkilled => exact .self rfl .setkilled hs' (by simp [Frame.child])
  case forkParent =>
    exact .setParent rfl (by simp [Frame.child]) (by simp [locksOf, Frame.locks]) (by simp [hs'])
      (by simp [Frame.child])
  case forkPublish =>
    exact .publish rfl (by simp [locksOf, Frame.locks]) (by simp [hs']) (by simp [Frame.child])
  case reparent.isTrue hpp =>
    exact .reparent rfl hpp (by simp [locksOf, Frame.locks]) (by simp [hs']) (by simp [Frame.child])
  case waitChild.isTrue.isFalse.isTrue hz _ _ =>
    exact .reap rfl hz (by simp [locksOf, Frame.locks]) (by simp [locksOf, Frame.locks]) (by simp [hs'])
      (by simp [Frame.child])
  -- the remaining writes are those of allocproc() and uvmcopy()
  all_goals first
    | exact .nothing (by simp [hs']) (by simp [Frame.child])
    | exact .alloc rfl ‹_› ‹_› (by simp [locksOf, Frame.locks]) (by simp [hs']) (by simp [Frame.child])
    | exact .allocFail rfl ‹_› (Bool.eq_false_of_not_eq_true ‹_›) (by simp [locksOf, Frame.locks]) (by simp [hs'])
        (by simp [Frame.child])
    | exact .inherit rfl (by simp [Frame.child]) (by simp [locksOf, Frame.locks]) (by simp [hs'])
        (by simp [Frame.child])
    | exact .forkFail rfl (by simp [locksOf, Frame.locks]) (by simp [hs']) (by simp [Frame.child])

theorem enter_wrote {p : Slot} (h : enter s.initproc p ch = some (e, st')) :
    Wrote s (some p) [] st' e.write e.spawn := by
  cases ch
  all_goals simp only [enter] at h
  all_goals repeat' (split at h)
  all_goals cases h
  case resize.isFalse sz pt _ => exact .self rfl (.resize sz pt) (by simp) rfl
  all_goals exact .nothing (by simp) (by simp [Frame.child])

theorem hold_wrote {me : Option Slot} {m : Nat} {due : List Cond} (hs : .sched ∉ st)
    (h : hold s.cond m due st ch = some (e, st')) : Wrote s me (.hold m due :: st) st' e.write e.spawn := by
  cases ch
  all_goals simp only [hold] at h
  all_goals repeat' (split at h)
  all_goals cases h
  all_goals exact .nothing (by simp [hs]) (by simp [Frame.child])

theorem visit_wrote {me : Option Slot} {i : Slot} (hs : .sched ∉ st) :
    Wrote s me (.visit j i :: st) (visit (s.proc i) j i st).2 (visit (s.proc i) j i st).1.write
      (visit (s.proc i) j i st).1.spawn := by
  have hs' : .sched ∉ (visit (s.proc i) j i st).2 := by
    unfold visit
    cases (j.body (s.proc i)).2 <;> simp [hs]
  have hk : children (visit (s.proc i) j i st).2 = children (.visit j i :: st) := by
    unfold visit
    cases (j.body (s.proc i)).2 <;> simp [Frame.child]
  have hw : (visit (s.proc i) j i st).1.write = (j.body (s.proc i)).1.map fun op => (i, op) := rfl
  rw [hw]
  cases hop : (j.body (s.proc i)).1 with
  | none => exact .nothing hs' hk
  | some op => exact .scan (scanWrite_of_body hop) (by simp [locksOf, Frame.locks]) hs' hk

theorem exec_wrote {c : Fin n} {me : Option Slot} (hs : .sched ∉ st) (h : ExecCase s c me ch st e st') :
    Wrote s me st st' e.write e.spawn := by
  have htail : ∀ {f : Frame} {r : List Frame}, .sched ∉ f :: r → .sched ∉ r :=
    fun hf hm => hf (List.mem_cons_of_mem _ hm)
  cases h with
  | enter hme h =>
    subst hme
    exact enter_wrote h
  | acquire hfree => exact .nothing (htail hs) (by simp [Frame.child])
  | twice hheld => exact .nothing (by simpa using hs) (by simp [Frame.child])
  | visit => exact visit_wrote (htail hs)
  | hold h => exact hold_wrote (htail hs) h
  | own hme h =>
    subst hme
    exact own_wrote hs h

end Xv6
