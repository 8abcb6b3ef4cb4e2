import Xv6.Proc.Code

/-!
# The shape of kernel stacks

Which frame can stand on which. A system call starts on an empty stack, so most frames have nothing below
them; interrupts put theirs on top of anything, and spinning for a lock stands on the section it enters.

* `Frame.Below me f st` : `f` may stand on `st`; `StackOk me st` : every frame of `st` does;
* `stackOk_of_reachable` : all stacks have this shape;
* `mem_locksOf` : a frame's locks are held, unless it is still entering its section.
-/

namespace Xv6

variable {n : Nat} {p : Slot} {ch : Choice} {st' st : List Frame} {e : Effect} {s : State n} {f : Frame} {l : Lock}

/-- The lock with which the section of a frame begins. -/
def Frame.enters (me : Option Slot) : Frame → Option Lock
  | .visit _ i | .allocproc i | .forkPublish i _ | .waitChild _ i => some (.proc i)
  | .hold m due => if due = [] then some (.mon m) else none
  | .loop w due => if due = [] then some (.mon w.cond.lock) else none
  | .loopKilled _ _ | .yield | .sleepPrepare _ | .sleep | .setkilled | .forkSnapshot _ | .exitZombie _
  | .waitKilled _ => me.map .proc
  | .forkParent _ _ => some .wait
  | .reparent _ pp => if pp = 0 then some .wait else none
  | .waitScan _ pp havekids => if pp = 0 ∧ havekids = false then some .wait else none
  | _ => none

/-- The frames of a system call, and of the loops that wait for a condition, are the last of their stack. -/
def Frame.base : Frame → Bool
  | .want _ | .panic | .hold _ _ | .yield | .sched | .unlockSelf | .sleepPrepare _ | .sleep => false
  | .visit (.wakeup _) _ => false
  | _ => true

def Frame.Below (me : Option Slot) (f : Frame) (st : List Frame) : Prop :=
  match f with
  | .want l => ∃ g r, st = g :: r ∧ g.enters me = some l
  | .sleepPrepare chan => st = [] ∨ (∃ w due, chan = w.cond.chan ∧ st = [.loopRelease w due]) ∨
      ∃ addr p, me = some p ∧ chan = .proc p ∧ st = [.waitRelease addr]
  | .sleep => st = [] ∨ (∃ w, st = [.loopWoken w]) ∨ ∃ addr, st = [.waitWoken addr]
  | f => f.base = true → st = []

def StackOk (me : Option Slot) : List Frame → Prop
  | [] => True
  | f :: st => f.Below me st ∧ StackOk me st

section Shape
variable (me : Option Slot) (p : Slot) (st : List Frame)

attribute [local simp] Frame.enters Frame.base Frame.Below

@[simp] theorem stackOk_nil : StackOk me [] ↔ True := Iff.rfl

@[simp] theorem stackOk_cons (f : Frame) : StackOk me (f :: st) ↔ f.Below me st ∧ StackOk me st := Iff.rfl

@[simp] theorem stackOk_scanFrom (j : Job) :
    StackOk me (scanFrom j st) ↔ (Frame.visit j 0).Below me st ∧ StackOk me st := by
  simp [scanFrom, Frame.Below, Frame.enters]

theorem stackOk_scanNext (j : Job) (i : Slot) (hj : (Frame.visit j i).Below me st) (h : StackOk me st) :
    StackOk me (scanNext j i st) := by
  unfold scanNext
  split
  · cases j <;> simp_all [Frame.Below, Frame.enters, Frame.base]
  · cases j <;> simp_all [Frame.Below, Frame.base]

theorem stackOk_reparentNext (status : Int) (pp : Slot) : StackOk me (reparentNext status pp []) := by
  unfold reparentNext
  split <;> simp [Frame.Below]

theorem stackOk_waitNext (addr : Nat) (pp : Slot) (havekids : Bool) :
    StackOk (some p) (waitNext p addr pp havekids []) := by
  unfold waitNext
  split
  · simp [Frame.Below]
  · cases havekids <;> simp [Frame.Below, Frame.enters]

end Shape

/-! ## The steps keep the shape -/

theorem enter_stackOk {init : Option Slot} (h : enter init p ch = some (e, st')) : StackOk (some p) st' := by
  cases ch
  all_goals simp only [enter] at h
  all_goals repeat' (split at h)
  all_goals cases h
  all_goals simp [Frame.Below, Frame.enters]

theorem hold_stackOk {cond : Cond → Bool} {me : Option Slot} {m : Nat} {due : List Cond} (hs : StackOk me st)
    (h : hold cond m due st ch = some (e, st')) : StackOk me st' := by
  cases ch
  all_goals simp only [hold] at h
  all_goals repeat' (split at h)
  all_goals cases h
  all_goals simp_all [Frame.Below, Frame.base]

theorem own_stackOk (hs : StackOk (some p) (f :: st)) (h : own s p ch st f = some (e, st')) :
    StackOk (some p) st' := by
  obtain ⟨hf, hs⟩ := hs
  cases f
  all_goals simp only [own] at h
  all_goals repeat' (split at h)
  all_goals cases h
  case sleepPrepare.isTrue => exact ⟨by simp [Frame.Below, Frame.base], hf, hs⟩
  all_goals simp only [Frame.Below, Frame.base, forall_const] at hf
  all_goals try subst hf
  all_goals simp [Frame.Below, Frame.base, Frame.enters, hs, stackOk_reparentNext, stackOk_waitNext]

theorem visit_stackOk {me : Option Slot} {j : Job} {i : Slot} (hs : StackOk me (.visit j i :: st)) :
    StackOk me (visit (s.proc i) j i st).2 := by
  obtain ⟨hj, hs⟩ := hs
  unfold visit
  cases hv : (j.body (s.proc i)).2 with
  | none => exact stackOk_scanNext me st j i hj hs
  | some v =>
    -- `wakeup()` does not stop before the end of the table
    cases j with
    | wakeup chan => simp [Job.body, wakeup] at hv
    | kkill pid => exact ⟨fun _ => hj rfl, hs⟩
    | ksetpriority pid priority => exact ⟨fun _ => hj rfl, hs⟩
    | kgetpriority pid => exact ⟨fun _ => hj rfl, hs⟩

theorem exec_stackOk {c : Fin n} {me : Option Slot} (hs : StackOk me st) (h : ExecCase s c me ch st e st') :
    StackOk me st' := by
  cases h with
  | enter hme h =>
    subst hme
    exact enter_stackOk h
  | acquire hfree => exact hs.2
  | twice hheld => exact ⟨by simp [Frame.Below, Frame.base], hs⟩
  | visit => exact visit_stackOk hs
  | hold h => exact hold_stackOk hs.2 h
  | own hme h =>
    subst hme
    exact own_stackOk hs h

theorem interrupt_stackOk {me : Option Slot} (hs : StackOk me st) (h : interrupt me st ch = some st') :
    StackOk me st' := by
  cases ch
  all_goals simp only [interrupt] at h
  case timer =>
    obtain ⟨p, rfl, rfl⟩ := Option.map_eq_some_iff.mp h
    simp [Frame.Below, Frame.enters, Frame.base, hs]
  all_goals cases h
  all_goals simp [Frame.Below, Frame.enters, Frame.base, hs]

/-- **All stacks have the shape.** -/
theorem stackOk_of_reachable (h : Reachable s) : Stacks StackOk s := by
  refine Automaton.Reachable.invariant (Stacks.init fun _ => trivial) ?_ h
  rintro s ⟨c, ch⟩ t hs hst ht
  refine hst.step (inv_of_reachable hs) ht (fun _ => trivial) (fun _ => ⟨by simp [Frame.Below, Frame.base], trivial⟩)
    (fun e st' hx hok => exec_stackOk hok hx) (fun st' hx _ hok => interrupt_stackOk hok hx) ?_ ?_
  · intro me st hok
    exact ⟨by simp [Frame.Below, Frame.base], hok⟩
  · intro me st hok
    exact hok.2

/-! ## The locks of the frames below the top -/

theorem Frame.enters_mem {me : Option Slot} (h : f.enters me = some l) : l ∈ f.locks me := by
  cases f
  all_goals simp only [Frame.enters] at h
  all_goals try split at h
  all_goals first | cases h | skip
  all_goals simp_all [Frame.locks, self]

theorem locksOf_cons {me : Option Slot} (h : ∀ l, f ≠ .want l) :
    locksOf me (f :: st) = f.locks me ++ locksOf me st := by
  cases f
  case want l => exact absurd rfl (h l)
  all_goals rfl

/-- `l` is held, and still is when the top frame is only entering its section. -/
def Inside (me : Option Slot) (l : Lock) (st : List Frame) : Prop :=
  l ∈ locksOf me st ∧ ∀ g r, st = g :: r → g.enters me = some l → l ∈ locksOf me r

theorem Inside.top {me : Option Slot} (hl : l ∈ f.locks me) (hin : f.enters me ≠ some l) : Inside me l (f :: st) := by
  refine ⟨?_, fun g r heq hg => ?_⟩
  · rw [locksOf_cons (by rintro l' rfl; simp [Frame.locks] at hl)]
    exact List.mem_append_left _ hl
  · cases heq
    exact absurd hg hin

theorem Inside.cons {me : Option Slot} (f : Frame) (h : Inside me l st) (hs : StackOk me (f :: st)) :
    Inside me l (f :: st) := by
  refine ⟨?_, fun g r heq _ => ?_⟩
  · by_cases hf : ∃ l', f = .want l'
    · obtain ⟨l', rfl⟩ := hf
      change l ∈ (locksOf me st).erase l'
      by_cases hll : l = l'
      · -- spinning for `l` takes away the lock of the frame it stands on
        subst hll
        obtain ⟨g, r, rfl, henter⟩ := hs.1
        rw [locksOf_cons (by rintro l' rfl; simp [Frame.enters] at henter),
          List.erase_append_left _ (Frame.enters_mem henter)]
        exact List.mem_append_right _ (h.2 g r rfl henter)
      · exact (List.mem_erase_of_ne hll).mpr h.1
    · rw [locksOf_cons (fun l' hl' => hf ⟨l', hl'⟩)]
      exact List.mem_append_right _ h.1
  · cases heq
    exact h.1

/-- The locks of a frame that is past its entry are held. -/
theorem mem_locksOf {me : Option Slot} (h : StackOk me st) (hf : f ∈ st) (hl : l ∈ f.locks me)
    (hin : f.enters me ≠ some l) : l ∈ locksOf me st := by
  suffices hinside : Inside me l st from hinside.1
  induction st with
  | nil => cases hf
  | cons g r ih =>
    rcases List.mem_cons.mp hf with rfl | hr
    · exact .top hl hin
    · exact (ih h.2 hr).cons g h

/-- A saved stack holds `p->lock` only. -/
theorem Saved.lock_eq (h : Saved p st) (hs : StackOk (some p) st) (hf : f ∈ st) (hl : l ∈ f.locks (some p))
    (hin : f.enters (some p) ≠ some l) : l = .proc p := by
  have hmem := mem_locksOf hs hf hl hin
  rw [h.1] at hmem
  exact List.mem_singleton.mp hmem

end Xv6
