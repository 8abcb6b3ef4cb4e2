import Xv6.Proc.Fields
import Xv6.Proc.Stack
import Mathlib.Logic.Relation

/-!
# The process locks cannot deadlock

`kfork()` takes the parent's `p->lock` while it holds the child's, so the order of two process locks is not that of the
slots. It is the states of the slots that fix it: the child is USED and the parent is on a CPU.

* `State.requests s c` : the lock that CPU `c` spins for;
* `Ordered me st` : no `p->lock` is held below a frame that may ask for another one;
* `Waits s c d` : CPU `c` spins for a process lock that CPU `d` holds;
* `process_locks_cannot_deadlock` : nobody spins for a lock of its own, and `Waits` has no cycle.
-/

namespace Xv6

variable {n : Nat}

/-- `wait_lock`, or a `p->lock`. -/
def Lock.isProcess : Lock → Bool
  | .wait | .proc _ => true
  | .mon _ => false

/-- The lock that the code of a CPU spins for. -/
def State.requests (s : State n) (c : Fin n) : Option Lock :=
  match (s.cpu c).loc with
  | .scan i _ _ => some (.proc i)
  | .select offset _ => some (.proc ((s.cpu c).nextIndex + offset))
  | _ =>
    match s.code c with
    | .want l :: _ => some l
    | _ => none

/-! ## What is held below a frame -/

def Clear (me : Option Slot) (st : List Frame) : Prop := ∀ k, .proc k ∉ locksOf me st

/-- The frames that may stand on other frames, and ask for a `p->lock`. -/
def Frame.asks : Frame → Bool
  | .visit _ _ | .hold _ _ | .yield => true
  | _ => false

def Ordered (me : Option Slot) : List Frame → Prop
  | [] => True
  | f :: st => (f.asks = true → Clear me st) ∧ Ordered me st

section Shape
variable {me : Option Slot} {p : Slot} {st : List Frame}

theorem clear_nil : Clear me [] := fun _ h => by cases h

theorem clear_hold {m : Nat} {due : List Cond} (h : Clear me st) : Clear me (.hold m due :: st) := fun k hk => by
  rcases List.mem_cons.mp hk with hk | hk
  · cases hk
  · exact h k hk

@[simp] theorem ordered_nil : Ordered me [] ↔ True := Iff.rfl

@[simp] theorem ordered_cons (f : Frame) : Ordered me (f :: st) ↔ (f.asks = true → Clear me st) ∧
    Ordered me st := Iff.rfl

theorem Scanned.ordered {st' : List Frame} (hs : Scanned st st') (hst : Clear me st) (h : Ordered me st) :
    Ordered me st' := by
  cases hs
  case done => exact h
  case visit => exact ⟨by simp [Frame.asks], fun _ => hst, h⟩
  all_goals simp [Frame.asks, h]

end Shape

/-! ## The steps keep the order -/

section Exec
variable {s : State n} {c : Fin n} {me : Option Slot} {ch : Choice} {st st' : List Frame} {e : Effect}

theorem enter_ordered {init : Option Slot} {p : Slot} (h : enter init p ch = some (e, st')) : Ordered (some p) st' := by
  cases ch
  all_goals simp only [enter] at h
  all_goals repeat' (split at h)
  all_goals cases h
  all_goals simp [Frame.asks, scanFrom, clear_nil]

theorem hold_ordered {cond : Cond → Bool} {m : Nat} {due : List Cond} (ho : Ordered me (.hold m due :: st))
    (h : hold cond m due st ch = some (e, st')) : Ordered me st' := by
  have hst : Clear me st := ho.1 rfl
  cases ch
  all_goals simp only [hold] at h
  all_goals repeat' (split at h)
  all_goals cases h
  case signal chan => exact (scanned_scanFrom _).ordered (clear_hold hst) ⟨fun _ => hst, ho.2⟩
  case unlock.isTrue => exact ho.2
  case await.isTrue => exact ⟨by simp [Frame.asks], ho.2⟩
  all_goals exact ⟨fun _ => hst, ho.2⟩

theorem own_ordered {p : Slot} {f : Frame} (hs : StackOk (some p) (f :: st)) (ho : Ordered (some p) (f :: st))
    (h : own s p ch st f = some (e, st')) : Ordered (some p) st' := by
  have hnil : Clear (some p) [] := clear_nil
  have hrep := fun status i => (scanned_reparentNext status i).ordered hnil trivial
  have hwait := fun addr i havekids => (scanned_waitNext p addr i havekids).ordered hnil trivial
  obtain ⟨hf, -⟩ := hs
  obtain ⟨-, ho⟩ := ho
  cases f
  all_goals simp only [own] at h
  all_goals repeat' (split at h)
  all_goals cases h
  all_goals simp only [Frame.Below, Frame.base, forall_const] at hf
  all_goals try subst hf
  -- the calls of wakeup()
  case h_1.refl => exact (scanned_scanFrom _).ordered (by simp [Clear, locksOf, Frame.locks]) (by simp [Frame.asks])
  case reparent.isTrue.refl => exact (scanned_scanFrom _).ordered (by simp [Clear, locksOf]) (hrep _ _)
  case exitWakeup.refl => exact (scanned_scanFrom _).ordered (by simp [Clear, locksOf, Frame.locks, self]) (by
  simp [Frame.asks])
  all_goals simp [Frame.asks, ho, hrep, hwait, clear_nil]

theorem visit_ordered {j : Job} {i : Slot} (ho : Ordered me (.visit j i :: st)) :
    Ordered me (visit (s.proc i) j i st).2 := by
  unfold visit
  cases (j.body (s.proc i)).2 with
  | none => exact (scanned_scanNext j i).ordered (ho.1 rfl) ho.2
  | some v => exact ⟨by simp [Frame.asks], ho.2⟩

theorem exec_ordered (hs : StackOk me st) (ho : Ordered me st) (h : ExecCase s c me ch st e st') : Ordered me st' := by
  cases h with
  | enter hme h =>
    subst hme
    exact enter_ordered h
  | acquire hfree => exact ho.2
  | twice hheld => exact ⟨by simp [Frame.asks], ho⟩
  | visit => exact visit_ordered ho
  | hold h => exact hold_ordered ho h
  | own hme h =>
    subst hme
    exact own_ordered hs ho h

/-- Interrupts come when no lock is held. -/
theorem interrupt_ordered (ho : Ordered me st) (hheld : locksOf me st = []) (h : interrupt me st ch = some st') :
    Ordered me st' := by
  have hst : Clear me st := fun k hk => by
    rw [hheld] at hk
    cases hk
  cases ch
  all_goals simp only [interrupt] at h
  case timer =>
    obtain ⟨p, rfl, rfl⟩ := Option.map_eq_some_iff.mp h
    exact ⟨by simp [Frame.asks], fun _ => hst, ho⟩
  case device chan =>
    cases h
    exact (scanned_scanFrom _).ordered hst ho
  case handler m =>
    cases h
    exact ⟨by simp [Frame.asks], fun _ => hst, ho⟩
  all_goals cases h

end Exec

theorem ordered_of_reachable {s : State n} (h : Reachable s) : Stacks Ordered s := by
  refine Automaton.Reachable.invariant (Stacks.init fun _ => trivial) ?_ h
  rintro s ⟨c, ch⟩ t hs ho ht
  have hok := (stackOk_of_reachable hs).code c
  refine ho.step (inv_of_reachable hs) ht (fun _ => trivial) (fun _ => ⟨by simp [Frame.asks], trivial⟩)
    (fun e st' hx ho => exec_ordered hok ho hx) (fun st' hx hheld ho => ?_) (fun me st ho => ?_) fun me st ho => ho.2
  · refine interrupt_ordered ho (List.eq_nil_iff_forall_not_mem.mpr fun l hl => ?_) hx
    have hmem := mem_held_of_code hl
    rw [hheld] at hmem
    cases hmem
  · exact ⟨by simp [Frame.asks], ho⟩

/-! ## Whoever spins for a lock -/

section Request
variable {me : Option Slot} {st : List Frame} {l : Lock}

/-- What is held by a thread that spins for `l`. -/
theorem Ordered.request (hs : StackOk me (.want l :: st)) (ho : Ordered me (.want l :: st)) :
    (l = .wait → ∀ l' ∈ locksOf me (.want l :: st), l'.isProcess = false) ∧
      ∀ i, l = .proc i → ∀ k, .proc k ∈ locksOf me (.want l :: st) → me = some i ∧ ∃ r, st = .forkSnapshot k :: r := by
  obtain ⟨⟨g, r, rfl, henter⟩, hg, -⟩ := hs
  have hr : g.asks = true → Clear me r := ho.2.1
  unfold Clear at hr
  cases g
  all_goals simp only [Frame.enters] at henter
  all_goals try split at henter
  all_goals try cases henter
  all_goals simp only [Frame.Below, Frame.base, Frame.asks, forall_const] at hg hr
  all_goals try obtain ⟨p, rfl, rfl⟩ := Option.map_eq_some_iff.mp henter
  all_goals try subst hg
  -- the frames that stand on others
  case visit.refl => simpa [locksOf, Frame.locks] using hr
  case yield => simpa [locksOf, Frame.locks, self] using hr
  case sleepPrepare =>
    rcases hg with rfl | ⟨w, due, -, rfl⟩ | ⟨addr, q, -, -, rfl⟩
    all_goals simp [locksOf, Frame.locks, self]
  case sleep =>
    rcases hg with rfl | ⟨w, rfl⟩ | ⟨addr, rfl⟩
    all_goals simp [locksOf, Frame.locks, self]
  all_goals simp [locksOf, Frame.locks, self, Lock.isProcess]

end Request

section Waits
variable {s : State n} {c d : Fin n} {i k p : Slot} {l : Lock}

theorem requests_cases (h : s.requests c = some l) :
    (s.code c = [] ∧ s.held c = [] ∧ ∃ i, l = .proc i) ∨
      ∃ st, s.code c = .want l :: st ∧ s.held c = locksOf (s.me c) (.want l :: st) := by
  unfold State.requests at h
  split at h
  · rename_i hloc
    cases h
    exact .inl ⟨by simp [State.code, hloc], by simp [State.held, hloc], _, rfl⟩
  · rename_i hloc
    cases h
    exact .inl ⟨by simp [State.code, hloc], by simp [State.held, hloc], _, rfl⟩
  · split at h
    · rename_i st hcode
      cases h
      refine .inr ⟨st, hcode, ?_⟩
      rw [← hcode]
      exact held_code (by rw [hcode]; exact List.cons_ne_nil _ _)
    · cases h

/-- Whoever spins for `wait_lock` holds no process lock. -/
theorem not_held_of_wait (hs : Reachable s) (h : s.requests c = some .wait) (hl : l ∈ s.held c) :
    l.isProcess = false := by
  rcases requests_cases h with ⟨-, -, i, hi⟩ | ⟨st, hcode, hheld⟩
  · cases hi
  · have hok := (stackOk_of_reachable hs).code c
    have ho := (ordered_of_reachable hs).code c
    rw [hcode] at hok ho
    rw [hheld] at hl
    exact (Ordered.request hok ho).1 rfl l hl

/-- The parent in `kfork()`, which holds `np->lock` and spins for its own lock. -/
structure Snapshots (s : State n) (c : Fin n) (p np : Slot) : Prop where
  loc : (s.cpu c).loc = .switched p
  code : ∃ r, s.code c = .want (.proc p) :: .forkSnapshot np :: r

/-- Only `kfork()` spins for a `p->lock` while it holds one. -/
theorem snapshots_of_held (hs : Reachable s) (h : s.requests c = some (.proc i)) (hk : .proc k ∈ s.held c) :
    Snapshots s c i k := by
  rcases requests_cases h with ⟨-, hheld, -⟩ | ⟨st, hcode, hheld⟩
  · rw [hheld] at hk
    cases hk
  · have hok := (stackOk_of_reachable hs).code c
    have ho := (ordered_of_reachable hs).code c
    rw [hcode] at hok ho
    rw [hheld] at hk
    obtain ⟨hme, r, rfl⟩ := (Ordered.request hok ho).2 i rfl k hk
    exact ⟨me_eq_some.mp hme, r, hcode⟩

/-- The parent is on a CPU, and so is no child of another `kfork()`. -/
theorem Snapshots.not_child (hs : Reachable s) (h : Snapshots s c p k) : ¬ Snapshots s d i p := by
  intro hd
  have hi := inv_of_reachable hs
  obtain ⟨r, hr⟩ := hd.code
  have hused : (s.proc p).state = .used := by
    refine hi.forkUsed i p ?_
    rw [← code_switched hd.loc, hr]
    simp [Frame.child]
  refine hi.idle_of_state (.inr hused) c ?_
  rw [h.loc]
  rfl

/-- CPU `c` spins for a process lock that CPU `d` holds. -/
def Waits (s : State n) (c d : Fin n) : Prop := ∃ l, l.isProcess = true ∧ s.requests c = some l ∧ s.lock l = some d

/-- `wait_lock` comes before the other process locks, these before the lock of a parent in `kfork()`, and whoever holds
that one spins for no process lock. -/
def waitRank (s : State n) (c : Fin n) : Nat :=
  match s.requests c with
  | some .wait => 0
  | some (.proc _) =>
    match s.code c with
    | _ :: .forkSnapshot _ :: _ => 2
    | _ => 1
  | _ => 3

theorem waitRank_proc (hs : Reachable s) (h : s.requests c = some (.proc i)) :
    (waitRank s c = 2 ∧ ∃ k, Snapshots s c i k) ∨ (waitRank s c = 1 ∧ ∀ k, ¬ Snapshots s c i k) := by
  unfold waitRank
  rw [h]
  dsimp only
  split
  · rename_i f k r hcode
    refine .inl ⟨rfl, k, ?_⟩
    have hok := (stackOk_of_reachable hs).code c
    rcases requests_cases h with ⟨hnil, -⟩ | ⟨st, hcode', -⟩
    · cases hcode.symm.trans hnil
    · obtain ⟨rfl, rfl⟩ := List.cons.inj (hcode.symm.trans hcode')
      rw [hcode] at hok
      obtain ⟨⟨g, r', heq, henter⟩, -⟩ := hok
      cases heq
      obtain ⟨p, hme, hp⟩ := Option.map_eq_some_iff.mp henter
      cases hp
      exact ⟨me_eq_some.mp hme, r, hcode⟩
  · rename_i hno
    refine .inr ⟨rfl, fun k hk => ?_⟩
    obtain ⟨r, hr⟩ := hk.code
    exact hno _ _ _ hr

theorem Waits.rank_lt (hs : Reachable s) (h : Waits s c d) : waitRank s c < waitRank s d := by
  obtain ⟨l, hl, hreq, hlock⟩ := h
  have hheld : l ∈ s.held d := ((inv_of_reachable hs).owned.iff_mem l d).mp hlock
  have hlow : waitRank s c ≤ 2 := by
    cases l with
    | wait => simp [waitRank, hreq]
    | proc i => rcases waitRank_proc hs hreq with ⟨h, -⟩ | ⟨h, -⟩ <;> omega
    | mon m => cases hl
  cases hd : s.requests d with
  | none =>
    have hrank : waitRank s d = 3 := by simp [waitRank, hd]
    omega
  | some l' =>
    cases l' with
    | wait =>
      rw [not_held_of_wait hs hd hheld] at hl
      cases hl
    | mon m =>
      have hrank : waitRank s d = 3 := by simp [waitRank, hd]
      omega
    | proc j =>
      cases l with
      | wait =>
        have hrank : waitRank s c = 0 := by simp [waitRank, hreq]
        rcases waitRank_proc hs hd with ⟨h, -⟩ | ⟨h, -⟩ <;> omega
      | mon m => cases hl
      | proc i =>
        -- `d` is a parent in `kfork()`, with `i` as its child
        have hsnap := snapshots_of_held hs hd hheld
        have hd2 : waitRank s d = 2 := by
          rcases waitRank_proc hs hd with ⟨h, -⟩ | ⟨-, hno⟩
          · exact h
          · exact absurd hsnap (hno i)
        rcases waitRank_proc hs hreq with ⟨-, k, hk⟩ | ⟨h, -⟩
        · exact absurd hsnap (hk.not_child hs)
        · omega

/-- **The process locks cannot deadlock**: the CPUs that spin for them do not wait for each other in a circle, and none
spins for one that it holds. -/
theorem process_locks_cannot_deadlock (hs : Reachable s) :
    (∀ c, ¬ Relation.TransGen (Waits s) c c) ∧
      ∀ c l, l.isProcess = true → s.requests c = some l → s.lock l ≠ some c := by
  have hrank : ∀ c d, Relation.TransGen (Waits s) c d → waitRank s c < waitRank s d := by
    intro c d h
    induction h with
    | single h => exact h.rank_lt hs
    | tail _ h ih => exact Nat.lt_trans ih (h.rank_lt hs)
  refine ⟨fun c h => Nat.lt_irrefl _ (hrank c c h), fun c l hl hreq hlock => ?_⟩
  exact Nat.lt_irrefl _ (Waits.rank_lt hs ⟨l, hl, hreq, hlock⟩)

end Waits

/-- CPU 0 holds the lock of slot 0 to visit it, and CPU 1 spins for it. -/
theorem process_locks_cannot_deadlock_pair : ∃ s : State 2, Waits s 1 0 ∧ s.lock (.proc 0) ≠ some 1 ∧
    ∀ c, ¬ Relation.TransGen (Waits s) c c := by
  have hrun : Automaton.run step (State.init 2) [(0, .alloc 1 1), (0, .run), (0, .run), (0, .run),
      (1, .run), (1, .run)] =
      some (Automaton.runD step (State.init 2) _) := Automaton.run_eq_runD (by decide)
  obtain ⟨hcycle, hown⟩ := process_locks_cannot_deadlock ⟨_, hrun⟩
  exact ⟨_, ⟨.proc 0, rfl, by decide, by decide⟩, hown 1 _ rfl (by decide), hcycle⟩

end Xv6
