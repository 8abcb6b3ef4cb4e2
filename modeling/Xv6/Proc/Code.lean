import Xv6.Proc.TableStep

/-!
# The code a CPU executes

`s.code c` is the kernel stack that CPU `c` executes on: that of the process it has switched to, or that
of an interrupt handler at the head of its scheduler loop. `CodeStep s t c ch e` lists what a step of `c`
does to it and to the saved stacks; the code of the other CPUs stays as it is.
-/

namespace Xv6
open Function

variable {n : Nat}

def State.code (s : State n) (c : Fin n) : List Frame :=
  match (s.cpu c).loc with
  | .top => (s.cpu c).irq
  | .switched p => s.stack p
  | _ => []

/-- `myproc()`. -/
def State.me (s : State n) (c : Fin n) : Option Slot :=
  match (s.cpu c).loc with
  | .switched p => some p
  | _ => none

/-- The conditions after an assignment. -/
def condAfter (cond : Cond → Bool) : Option (Cond × Bool) → Cond → Bool
  | none => cond
  | some (κ, b) => update cond κ b

/-- Which frame makes which write. -/
inductive Frame.Writes (me : Option Slot) : Frame → Slot → Op → Prop
  | yield {p : Slot} (hme : me = some p) : Frame.Writes me .yield p .yield
  | sleepPrepare {p : Slot} {chan : Chan} (hme : me = some p) :
      Frame.Writes me (.sleepPrepare chan) p (.sleepPrepare chan)
  | sleep {p : Slot} (hme : me = some p) : Frame.Writes me .sleep p .sleep
  | setkilled {p : Slot} (hme : me = some p) : Frame.Writes me .setkilled p .setkilled
  | wakeup {chan : Chan} {i : Slot} : Frame.Writes me (.visit (.wakeup chan) i) i .wakeup
  | kkill {pid : Int} {i : Slot} : Frame.Writes me (.visit (.kkill pid) i) i .kkill
  | ksetpriority {pid : Int} {v : {v : Int // priorityValid v}} {i : Slot} :
      Frame.Writes me (.visit (.ksetpriority pid v) i) i (.ksetpriority v)
  | allocproc {p i : Slot} {pid : Int} {tf pt : Nat} (hme : me = some p) :
      Frame.Writes me (.allocproc i) i (.allocproc pid tf pt)
  | inherit {p np : Slot} {v : Int} {sz : Nat} (hme : me = some p) :
      Frame.Writes me (.forkCopy np v) np (.inherit v sz)
  | forkfail {p np : Slot} {v : Int} (hme : me = some p) : Frame.Writes me (.forkCopy np v) np .forkfail
  | setParent {np p : Slot} {pid : Int} (hme : me = some p) :
      Frame.Writes me (.forkParent np pid) np (.setParent p)
  | publish {p np : Slot} {pid : Int} (hme : me = some p) : Frame.Writes me (.forkPublish np pid) np .publish
  | reparent {p pp : Slot} {status : Int} {init : Option Slot} (hme : me = some p) :
      Frame.Writes me (.reparent status pp) pp (.reparent init)
  | kexit {p : Slot} {status : Int} (hme : me = some p) : Frame.Writes me (.exitZombie status) p (.kexit status)
  | reap {p pp : Slot} {addr : Nat} (hme : me = some p) : Frame.Writes me (.waitChild addr pp) pp .reap

theorem exec_writes {s : State n} {c : Fin n} {me : Option Slot} {ch : Choice} {st st' : List Frame}
    {e : Effect} {i : Slot} {op : Op} (h : ExecCase s c me ch st e st') (hw : e.write = some (i, op)) :
    (st = [] ∧ me = some i ∧ ∃ sz pt, op = .resize sz pt) ∨ ∃ f r, st = f :: r ∧ f.Writes me i op := by
  cases h with
  | enter hme h =>
    left
    cases ch
    all_goals simp only [enter] at h
    all_goals repeat' (split at h)
    all_goals cases h
    all_goals cases hw
    exact ⟨rfl, hme, _, _, rfl⟩
  | acquire hfree => cases hw
  | twice hheld => cases hw
  | @visit j k st =>
    refine Or.inr ⟨_, _, rfl, ?_⟩
    obtain ⟨op', hop, heq⟩ := Option.map_eq_some_iff.mp hw
    cases heq
    cases scanWrite_of_body hop with
    | wakeup _ => exact .wakeup
    | kkill _ => exact .kkill
    | ksetpriority _ _ => exact .ksetpriority
  | hold h =>
    cases ch
    all_goals simp only [hold] at h
    all_goals repeat' (split at h)
    all_goals cases h
    all_goals cases hw
  | @own p f st st' e hme h =>
    refine Or.inr ⟨f, st, rfl, ?_⟩
    cases f
    all_goals simp only [own] at h
    all_goals repeat' (split at h)
    all_goals cases h
    all_goals cases hw
    all_goals constructor
    all_goals exact hme

theorem exec_visit {s : State n} {c : Fin n} {me : Option Slot} {ch : Choice} {st st' : List Frame} {e : Effect}
    {j : Job} {i : Slot} (h : ExecCase s c me ch (.visit j i :: st) e st') :
    e = (visit (s.proc i) j i st).1 ∧ st' = (visit (s.proc i) j i st).2 := by
  cases h with
  | visit => exact ⟨rfl, rfl⟩
  | own hme h => simp [own] at h

inductive CodeStep (s t : State n) (c : Fin n) (ch : Choice) : Effect → Prop
  | exec {e : Effect} {st' : List Frame} (h : ExecCase s c (s.me c) ch (s.code c) e st')
      (hs : .sched ∉ s.code c) (hcode : t.code c = st') (hme : t.me c = s.me c)
      (hown : ∀ q, s.me c = some q → t.stack q = st')
      (hother : ∀ q, s.me c ≠ some q → t.stack q = if e.spawn = some q then [.unlockSelf] else s.stack q) :
      CodeStep s t c ch e
  | interrupt {st' : List Frame} (h : interrupt (s.me c) (s.code c) ch = some st') (hheld : s.held c = [])
      (hcode : t.code c = st') (hme : t.me c = s.me c) (hown : ∀ q, s.me c = some q → t.stack q = st')
      (hother : ∀ q, s.me c ≠ some q → t.stack q = s.stack q) : CodeStep s t c ch {}
  | panic {p : Slot} {st : List Frame} (hme : s.me c = some p) (hcode : s.code c = .sched :: st)
      (hcode' : t.code c = .panic :: .sched :: st) (hme' : t.me c = some p)
      (hstack : t.stack = update s.stack p (.panic :: .sched :: st)) : CodeStep s t c ch {}
  | dispatch {p : Slot} (hcode : s.code c = []) (hme : s.me c = none) (hcode' : t.code c = s.stack p)
      (hme' : t.me c = some p) (hsaved : Saved p (s.stack p)) (hstack : t.stack = s.stack) :
      CodeStep s t c ch { write := some (p, .dispatch) }
  | swtch {p : Slot} {st : List Frame} (hme : s.me c = some p) (hcode : s.code c = .sched :: st)
      (hheld : s.held c = [.proc p]) (hcode' : t.code c = [])
      (hstack : t.stack = update s.stack p st) : CodeStep s t c ch {}
  | boot {tf pt : Nat} (hcode : s.code c = []) (hme : s.me c = none) (hcode' : t.code c = [])
      (hstate : (s.proc 0).state = .unused) (hstack : t.stack = update s.stack 0 [.unlockSelf]) :
      CodeStep s t c ch
        { write := some (0, .userinit s.nextpid tf pt), allocpid := true, spawn := some 0 }
  | idle {e : Effect} (hcode : s.code c = []) (hme : s.me c = none) (hcode' : t.code c = [])
      (hme' : t.me c = none) (hstack : t.stack = s.stack) (hw : e.write = none ∨ ∃ i, e.write = some (i, .visit))
      (hspawn : e.spawn = none) (hassign : e.assign = none) : CodeStep s t c ch e

/-- What a step of CPU `c` does to the stack of process `p`. -/
inductive StackStep (s t : State n) (c : Fin n) (ch : Choice) (e : Effect) (p : Slot) : Prop
  | same (h : t.stack p = s.stack p)
  | born (hsp : e.spawn = some p) (h : t.stack p = [.unlockSelf])
  | exec {st' : List Frame} (hme : s.me c = some p) (hx : ExecCase s c (some p) ch (s.stack p) e st')
      (h : t.stack p = st') (hs : .sched ∉ s.stack p) (hme' : t.me c = some p)
  | interrupt {st' : List Frame} (hme : s.me c = some p) (hx : interrupt (some p) (s.stack p) ch = some st')
      (he : e = {}) (h : t.stack p = st') (hheld : s.held c = [])
  | panic {st : List Frame} (hme : s.me c = some p) (hst : s.stack p = .sched :: st) (he : e = {})
      (h : t.stack p = .panic :: .sched :: st)
  | swtch {st : List Frame} (hme : s.me c = some p) (hst : s.stack p = .sched :: st) (he : e = {})
      (h : t.stack p = st)

section Code
variable {s t : State n} {c : Fin n} {p : Slot}

theorem code_switched (h : (s.cpu c).loc = .switched p) : s.code c = s.stack p := by
  simp [State.code, h]

theorem me_switched (h : (s.cpu c).loc = .switched p) : s.me c = some p := by
  simp [State.me, h]

theorem me_eq_some : s.me c = some p ↔ (s.cpu c).loc = .switched p := by
  unfold State.me
  split <;> simp_all

theorem stack_of_me (h : s.me c = some p) : s.stack p = s.code c := (code_switched (me_eq_some.mp h)).symm

theorem code_top (h : (s.cpu c).loc = .top) : s.code c = (s.cpu c).irq := by
  simp [State.code, h]

theorem me_top (h : (s.cpu c).loc = .top) : s.me c = none := by
  simp [State.me, h]

/-- A CPU holds the locks of the code it executes. -/
theorem mem_held_of_code {l : Lock} (h : l ∈ locksOf (s.me c) (s.code c)) : l ∈ s.held c := by
  cases hloc : (s.cpu c).loc <;> simp_all [State.me, State.code, State.held, locksOf]

theorem held_code (h : s.code c ≠ []) : s.held c = locksOf (s.me c) (s.code c) := by
  cases hloc : (s.cpu c).loc <;> simp_all [State.me, State.code, State.held]

/-- The scheduler's own steps. -/
theorem code_loc (hloc : (s.cpu c).loc ≠ .top) (h : (s.cpu c).loc.proc = none) :
    s.code c = [] ∧ s.me c = none := by
  unfold State.code State.me
  split <;> simp_all [SchedLoc.proc]

theorem code_congr {d : Fin n} (hcpu : t.cpu d = s.cpu d)
    (hst : ∀ p, (s.cpu d).loc = .switched p → t.stack p = s.stack p) :
    t.code d = s.code d ∧ t.me d = s.me d := by
  unfold State.code State.me
  rw [hcpu]
  split <;> simp_all

end Code

section Step
variable {s t : State n} {c : Fin n} {ch : Choice} {e : Effect} {k : Ctl} {i : Slot} {op : Op}

theorem apply_move_cond : ((s.apply c e).move c k).cond = condAfter s.cond e.assign := by
  rw [move_cond]
  rfl

/-- A step of a CPU that executes no code before and after it. -/
theorem CodeStep.of_loc {l : SchedLoc} (hl : l.Between ∨ (∃ i b f, l = .scanIn i b f) ∨ ∃ o b, l = .selectIn o b)
    (hcode : s.code c = []) (hme : s.me c = none) (hirq : (s.cpu c).irq = []) (hspawn : e.spawn = none)
    (hw : e.write = none ∨ ∃ i, e.write = some (i, .visit)) (hassign : e.assign = none) :
    CodeStep s ((s.apply c e).move c (.loc l)) c ch e := by
  refine .idle hcode hme ?_ ?_ (apply_stack_none s c e hspawn) hw hspawn hassign
  all_goals
    have hloc : (((s.apply c e).move c (.loc l)).cpu c).loc = l := by simp [State.move]
    have hirq' : (((s.apply c e).move c (.loc l)).cpu c).irq = [] := by simp [State.move, hirq]
    simp only [State.code, State.me, hloc, hirq']
    rcases hl with hl | ⟨i, b, f, rfl⟩ | ⟨o, b, rfl⟩
    · cases l <;> simp_all [SchedLoc.Between]
    · rfl
    · rfl

/-- A step of a process's thread. -/
theorem CodeStep.of_thread {p : Slot} (st' : List Frame) (hloc : (s.cpu c).loc = .switched p) :
    ((s.apply c e).move c (.thread p st')).code c = st' ∧
      ((s.apply c e).move c (.thread p st')).me c = s.me c ∧
      (∀ q, s.me c = some q → ((s.apply c e).move c (.thread p st')).stack q = st') ∧
      ∀ q, s.me c ≠ some q → ((s.apply c e).move c (.thread p st')).stack q =
        if e.spawn = some q then [.unlockSelf] else s.stack q := by
  have hloc' : (((s.apply c e).move c (.thread p st')).cpu c).loc = .switched p := by rw [thread_loc, hloc]
  refine ⟨by rw [code_switched hloc', thread_stack_self], by rw [me_switched hloc', me_switched hloc],
    fun q hq => ?_, fun q hq => ?_⟩
  · rw [me_switched hloc] at hq
    obtain rfl := Option.some.inj hq
    exact thread_stack_self
  · have hqp : q ≠ p := by
      rintro rfl
      exact hq (me_switched hloc)
    split_ifs with hsp
    · rw [thread_stack_ne hqp, apply_stack_some _ _ _ hsp, update_self]
    · exact spawn_stack_ne hqp hsp

theorem Inv.code_case (hi : Inv s) (h : NextCase s c ch e k) :
    CodeStep s ((s.apply c e).move c k) c ch e := by
  have hirq : (s.cpu c).loc ≠ .top → (s.cpu c).irq = [] := hi.irqTop c
  cases h with
  | boot hloc _ hfree =>
    obtain ⟨hcode, hme⟩ := code_loc (s := s) (c := c) (by rw [hloc]; simp) (by rw [hloc]; rfl)
    refine .boot hcode hme ?_ hfree rfl
    exact (code_loc (by simp [State.move, hloc]) (by simp [State.move, hloc, SchedLoc.proc])).1
  | start hloc =>
    obtain ⟨hcode, hme⟩ := code_loc (s := s) (c := c) (by rw [hloc]; simp) (by rw [hloc]; rfl)
    refine .idle hcode hme ?_ (me_top (by simp [State.move])) rfl (Or.inl rfl) rfl rfl
    rw [code_top (by simp [State.move])]
    simp [State.move, hirq (by rw [hloc]; simp)]
  | pass hloc hidle _ =>
    exact .of_loc (Or.inl trivial) (by rw [code_top hloc, hidle]) (me_top hloc) hidle rfl (Or.inl rfl) rfl
  | irqTake hloc hidle h =>
    have hcode : s.code c = [] := by rw [code_top hloc, hidle]
    have hheld : s.held c = [] := by simp [State.held, hloc, hidle, locksOf]
    refine .interrupt (by rwa [me_top hloc, hcode]) hheld ?_ ?_ ?_ fun q _ => rfl
    · rw [code_top (by simp [State.move, hloc])]
      simp [State.move]
    · rw [me_top hloc, me_top (by simp [State.move, hloc])]
    · intro q hq
      rw [me_top hloc] at hq
      cases hq
  | @irqExec _ st' hloc _ h =>
    have hspawn : e.spawn = none := by
      have hw := exec_wrote (hi.irqSched c) h
      cases hsp : e.spawn with
      | none => rfl
      | some i =>
        rw [hsp] at hw
        generalize e.write = w at hw
        cases hw with
        | alloc hme => cases hme
    refine .exec (by rwa [me_top hloc, code_top hloc]) ?_ ?_ ?_ ?_ ?_
    · rw [code_top hloc]
      exact hi.irqSched c
    · rw [code_top (by simp [State.move, hloc])]
      simp [State.move]
    · rw [me_top hloc, me_top (by simp [State.move, hloc])]
    · intro q hq
      rw [me_top hloc] at hq
      cases hq
    · intro q _
      rw [hspawn, if_neg (by simp)]
      exact congrFun (apply_stack_none s c e hspawn) q
  | scan hloc =>
    obtain ⟨hcode, hme⟩ := code_loc (s := s) (c := c) (by rw [hloc]; simp) (by rw [hloc]; rfl)
    exact .of_loc (Or.inr (Or.inl ⟨_, _, _, rfl⟩)) hcode hme (hirq (by rw [hloc]; simp)) rfl (Or.inl rfl) rfl
  | visit hloc =>
    obtain ⟨hcode, hme⟩ := code_loc (s := s) (c := c) (by rw [hloc]; simp) (by rw [hloc]; rfl)
    exact .of_loc (Or.inl (scanAfter_between _ _ _)) hcode hme (hirq (by rw [hloc]; simp)) rfl
      (Or.inr ⟨_, rfl⟩) rfl
  | select hloc =>
    obtain ⟨hcode, hme⟩ := code_loc (s := s) (c := c) (by rw [hloc]; simp) (by rw [hloc]; rfl)
    exact .of_loc (Or.inr (Or.inr ⟨_, _, rfl⟩)) hcode hme (hirq (by rw [hloc]; simp)) rfl (Or.inl rfl) rfl
  | @dispatch o i _ hloc hidx hstate =>
    obtain ⟨hcode, hme⟩ := code_loc (s := s) (c := c) (by rw [hloc]; simp) (by rw [hloc]; rfl)
    have hidle : ∀ d, (s.cpu d).loc.proc ≠ some i :=
      hi.idle_of_held (c := c) (by simp [State.held, hloc, hidx]) (by simp [hloc, SchedLoc.proc])
        (by rw [hstate]; simp)
    refine .dispatch hcode hme ?_ (me_switched (by simp [State.move]))
      (((hi.slot i).idle hidle).2 (Or.inr (Or.inl hstate))) rfl
    rw [code_switched (p := i) (by simp [State.move])]
    rfl
  | skip hloc =>
    obtain ⟨hcode, hme⟩ := code_loc (s := s) (c := c) (by rw [hloc]; simp) (by rw [hloc]; rfl)
    exact .of_loc (Or.inl (selectAfter_between _ _)) hcode hme (hirq (by rw [hloc]; simp)) rfl (Or.inl rfl) rfl
  | @swtch p st hloc hst hlock hnoff =>
    have hheld : s.held c = [.proc p] := by
      have hmem := (hi.owned.iff_mem _ _).mp hlock
      have hlen := hi.noff c
      rw [hnoff] at hlen
      obtain ⟨l, hl⟩ := List.length_eq_one_iff.mp hlen.symm
      rw [hl] at hmem ⊢
      rw [List.mem_singleton.mp hmem]
    refine .swtch (me_switched hloc) (by rw [code_switched hloc, hst]) hheld ?_ rfl
    simp [State.code, State.move]
  | @schedPanic p st hloc hst =>
    obtain ⟨hcode, hme, -⟩ := CodeStep.of_thread (e := {}) (.panic :: .sched :: st) hloc
    exact .panic (me_switched hloc) (by rw [code_switched hloc, hst]) hcode (hme.trans (me_switched hloc)) rfl
  | @interrupt p st hloc _ hnoff h =>
    have hheld : s.held c = [] := by
      rw [hi.noff c] at hnoff
      exact List.eq_nil_of_length_eq_zero hnoff
    obtain ⟨hcode, hme, hown, hother⟩ := CodeStep.of_thread (e := {}) st hloc
    refine .interrupt (by rwa [me_switched hloc, code_switched hloc]) hheld hcode hme hown ?_
    intro q hq
    rw [hother q hq, if_neg (by simp)]
  | @thread p _ st hloc hst h =>
    have hs := hi.not_sched hloc hst (Or.inr fun r hr => by
      rw [hr] at h
      exact h.head_ne_panic)
    obtain ⟨hcode, hme, hown, hother⟩ := CodeStep.of_thread (e := e) st hloc
    refine .exec (by rwa [me_switched hloc, code_switched hloc]) ?_ hcode hme hown hother
    rwa [code_switched hloc]
  | back hloc =>
    have hcode : s.code c = [] ∧ s.me c = none := by simp [State.code, State.me, hloc]
    refine .idle hcode.1 hcode.2 ?_ (me_top (by simp [State.move])) rfl (Or.inl rfl) rfl rfl
    rw [code_top (by simp [State.move])]
    simp [State.move, hirq (by rw [hloc]; simp)]
  | wfi hloc =>
    obtain ⟨hcode, hme⟩ := code_loc (s := s) (c := c) (by rw [hloc]; simp) (by rw [hloc]; rfl)
    exact .of_loc (Or.inl trivial) hcode hme (hirq (by rw [hloc]; simp)) rfl (Or.inl rfl) rfl

/-- A slot for which a step makes a thread was free. -/
theorem CodeStep.spawn_unused (h : CodeStep s t c ch e) {q : Slot} (hq : e.spawn = some q) :
    (s.proc q).state = .unused := by
  cases h with
  | exec h hs _ _ _ _ =>
    have hw := exec_wrote hs h
    rw [hq] at hw
    generalize e.write = w at hw
    cases hw with
    | alloc _ hstate => exact hstate
  | boot _ _ _ hstate _ => exact Option.some.inj hq ▸ hstate
  | interrupt => cases hq
  | panic => cases hq
  | dispatch => cases hq
  | swtch => cases hq
  | idle _ _ _ _ _ _ hspawn _ =>
    rw [hspawn] at hq
    cases hq

theorem CodeStep.stackStep (h : CodeStep s t c ch e) (p : Slot) : StackStep s t c ch e p := by
  have hcode : s.me c = some p → s.code c = s.stack p := fun hme => code_switched (me_eq_some.mp hme)
  cases h with
  | exec hx hs _ hme' hown hother =>
    by_cases hme : s.me c = some p
    · rw [hme, hcode hme] at hx
      exact .exec hme hx (hown p hme) (hcode hme ▸ hs) (hme'.trans hme)
    · by_cases hsp : e.spawn = some p
      · exact .born hsp (by rw [hother p hme, if_pos hsp])
      · exact .same (by rw [hother p hme, if_neg hsp])
  | interrupt hx hheld _ _ hown hother =>
    by_cases hme : s.me c = some p
    · rw [hme, hcode hme] at hx
      exact .interrupt hme hx rfl (hown p hme) hheld
    · exact .same (hother p hme)
  | @panic q st hme' hst _ _ hstack =>
    by_cases hq : p = q
    · subst hq
      exact .panic hme' (by rw [← hcode hme', hst]) rfl (by rw [hstack, update_self])
    · exact .same (by rw [hstack, update_of_ne hq])
  | dispatch _ _ _ _ _ hstack => exact .same (by rw [hstack])
  | @swtch q st hme' hst _ _ hstack =>
    by_cases hq : p = q
    · subst hq
      exact .swtch hme' (by rw [← hcode hme', hst]) rfl (by rw [hstack, update_self])
    · exact .same (by rw [hstack, update_of_ne hq])
  | boot _ _ _ _ hstack =>
    by_cases hp : p = 0
    · subst hp
      exact .born rfl (by rw [hstack, update_self])
    · exact .same (by rw [hstack, update_of_ne hp])
  | idle _ _ _ _ hstack => exact .same (by rw [hstack])

/-- A stack changes while its process runs, is made, or leaves its CPU through `sched()`. -/
theorem CodeStep.stack_case (hi : Inv s) (h : CodeStep s t c ch e) (p : Slot) :
    t.stack p = s.stack p ∨ ((s.proc p).state = .unused ∧ t.stack p = [.unlockSelf]) ∨
      (s.proc p).state = .running ∨
      ∃ st, s.stack p = .sched :: st ∧ (t.stack p = .panic :: .sched :: st ∨ t.stack p = st) := by
  cases h.stackStep p with
  | same h => exact Or.inl h
  | born hsp hnew => exact Or.inr (Or.inl ⟨h.spawn_unused hsp, hnew⟩)
  | exec hme _ _ hs => exact Or.inr (Or.inr (Or.inl (hi.running (me_eq_some.mp hme) hs)))
  | interrupt hme _ _ _ hheld =>
    have hloc := me_eq_some.mp hme
    rcases (hi.slot p).switched c hloc with h | ⟨-, -, hl⟩
    · exact Or.inr (Or.inr (Or.inl h.2))
    · rw [← held_switched hloc, hheld] at hl
      cases hl
  | panic _ hst _ h => exact Or.inr (Or.inr (Or.inr ⟨_, hst, Or.inl h⟩))
  | swtch _ hst _ h => exact Or.inr (Or.inr (Or.inr ⟨_, hst, Or.inr h⟩))

/-- The stacks that a step leaves as they are. -/
theorem CodeStep.stack_of_ne (h : CodeStep s t c ch e) {q : Slot} (hq : s.me c ≠ some q)
    (hsp : e.spawn ≠ some q) : t.stack q = s.stack q := by
  cases h with
  | exec _ _ _ _ _ hother => rw [hother q hq, if_neg hsp]
  | interrupt _ _ _ _ _ hother => exact hother q hq
  | panic hme _ _ _ hstack =>
    rw [hstack, update_of_ne]
    rintro rfl
    exact hq hme
  | dispatch _ _ _ _ _ hstack => rw [hstack]
  | swtch hme _ _ _ hstack =>
    rw [hstack, update_of_ne]
    rintro rfl
    exact hq hme
  | boot _ _ _ _ hstack =>
    rw [hstack, update_of_ne]
    rintro rfl
    exact hsp rfl
  | idle _ _ _ _ hstack => rw [hstack]

/-- **Inversion of a step for the code of the CPUs.** -/
theorem Inv.code_step (hi : Inv s) (h : Xv6.step s (c, ch) = some t) :
    ∃ e, CodeStep s t c ch e ∧ writeOf s (c, ch) = e.write ∧ t.cond = condAfter s.cond e.assign ∧
      ∀ d, d ≠ c → t.code d = s.code d ∧ t.me d = s.me d := by
  obtain ⟨e, k, hcase, rfl, hw⟩ := step_case h
  have hcs := hi.code_case hcase
  refine ⟨e, hcs, hw, apply_move_cond, fun d hd => ?_⟩
  refine code_congr (step_cpu_ne hd) fun q hq => hcs.stack_of_ne ?_ ?_
  · intro hme
    refine hd (hi.one d c q ?_ ?_)
    · rw [hq]
      rfl
    · rw [me_eq_some.mp hme]
      rfl
  · intro hsp
    refine hi.idle_of_state (Or.inl (hcs.spawn_unused hsp)) d ?_
    rw [hq]
    rfl

/-- **The writer of a slot.** A write that is not the scheduler's, `userinit()`'s or `growproc()`'s is made
by the top frame of the code. -/
theorem CodeStep.writer (hcs : CodeStep s t c ch e) (hw : e.write = some (i, op)) :
    (op = .visit ∨ op = .dispatch ∨ (∃ pid tf pt, op = .userinit pid tf pt) ∨ ∃ sz pt, op = .resize sz pt) ∨
      ∃ f r, s.code c = f :: r ∧ f.Writes (s.me c) i op := by
  cases hcs with
  | exec hx =>
    refine (exec_writes hx hw).imp_left ?_
    rintro ⟨-, -, h⟩
    exact Or.inr (Or.inr (Or.inr h))
  | dispatch =>
    cases hw
    exact Or.inl (Or.inr (Or.inl rfl))
  | boot =>
    cases hw
    exact Or.inl (Or.inr (Or.inr (Or.inl ⟨_, _, _, rfl⟩)))
  | idle _ _ _ _ _ hv =>
    rcases hv with hv | ⟨k, hv⟩
    · rw [hv] at hw
      cases hw
    · rw [hv] at hw
      cases hw
      exact Or.inl (Or.inl rfl)
  | interrupt => cases hw
  | panic => cases hw
  | swtch => cases hw

/-- A step with code and a write executes the code. -/
theorem CodeStep.exec_of_write (hcs : CodeStep s t c ch e) {f : Frame} {r : List Frame} (hcode : s.code c = f :: r)
    (hw : e.write = some (i, op)) :
    ∃ st', ExecCase s c (s.me c) ch (f :: r) e st' ∧ t.code c = st' ∧ ∀ q, s.me c = some q → t.stack q = st' := by
  cases hcs with
  | exec hx _ hcode' _ hown => exact ⟨_, hcode ▸ hx, hcode', hown⟩
  | interrupt => cases hw
  | panic => cases hw
  | dispatch hno => cases hcode.symm.trans hno
  | swtch => cases hw
  | boot hno => cases hcode.symm.trans hno
  | idle hno => cases hcode.symm.trans hno

theorem Inv.writer (hi : Inv s) (h : Xv6.step s (c, ch) = some t) (hw : writeOf s (c, ch) = some (i, op)) :
    (op = .visit ∨ op = .dispatch ∨ (∃ pid tf pt, op = .userinit pid tf pt) ∨ ∃ sz pt, op = .resize sz pt) ∨
      ∃ f r, s.code c = f :: r ∧ f.Writes (s.me c) i op := by
  obtain ⟨e, hcs, hwe, -, -⟩ := hi.code_step h
  exact hcs.writer (hwe.symm.trans hw)

/-! ## Properties of all stacks -/

/-- `Q` holds of the code of every CPU and of every saved stack. -/
structure Stacks (Q : Option Slot → List Frame → Prop) (s : State n) : Prop where
  code : ∀ c, Q (s.me c) (s.code c)
  saved : ∀ p, Q (some p) (s.stack p)

theorem Stacks.init {Q : Option Slot → List Frame → Prop} (hnil : ∀ me, Q me []) : Stacks Q (State.init n) :=
  ⟨fun _ => hnil _, fun _ => hnil _⟩

/-- **The stack rule.** What the steps of the code and the moves through `sched()` keep, every step of the
machine keeps. -/
theorem Stacks.step {Q : Option Slot → List Frame → Prop} (hQ : Stacks Q s) (hi : Inv s)
    (h : Xv6.step s (c, ch) = some t) (hnil : ∀ me, Q me []) (hborn : ∀ me, Q me [.unlockSelf])
    (hexec : ∀ e st', ExecCase s c (s.me c) ch (s.code c) e st' → Q (s.me c) (s.code c) → Q (s.me c) st')
    (hint : ∀ st', interrupt (s.me c) (s.code c) ch = some st' → s.held c = [] → Q (s.me c) (s.code c) → Q (s.me c) st')
    (hpanic : ∀ me st, Q me (.sched :: st) → Q me (.panic :: .sched :: st))
    (hsched : ∀ me st, Q me (.sched :: st) → Q me st) : Stacks Q t := by
  obtain ⟨e, hcs, -, -, hother⟩ := hi.code_step h
  -- the code of `c`, the stack of the process on it, and the stack of a new process
  obtain ⟨hcode, hown, hnew⟩ : Q (t.me c) (t.code c) ∧ (∀ q, s.me c = some q → Q (some q) (t.stack q)) ∧
      ∀ q, s.me c ≠ some q → e.spawn = some q → Q (some q) (t.stack q) := by
    have hc := hQ.code c
    cases hcs with
    | exec hx _ hcode hme hown hother =>
      have hst := hexec _ _ hx hc
      refine ⟨by rwa [hme, hcode], fun q hq => by rw [hown q hq, ← hq]; exact hst, fun q hq hsp => ?_⟩
      rw [hother q hq, if_pos hsp]
      exact hborn _
    | interrupt hx hheld hcode hme hown _ =>
      have hst := hint _ hx hheld hc
      exact ⟨by rwa [hme, hcode], fun q hq => by rw [hown q hq, ← hq]; exact hst, by simp⟩
    | @panic p st hme hcode hcode' hme' hstack =>
      rw [hme, hcode] at hc
      have hst := hpanic _ _ hc
      refine ⟨by rwa [hme', hcode'], fun q hq => ?_, by simp⟩
      rw [hme] at hq
      obtain rfl := Option.some.inj hq
      rwa [hstack, update_self]
    | @dispatch p hcode hme hcode' hme' _ hstack =>
      refine ⟨by rw [hme', hcode']; exact hQ.saved p, fun q hq => ?_, by simp⟩
      rw [hme] at hq
      cases hq
    | @swtch p st hme hcode _ hcode' hstack =>
      rw [hme, hcode] at hc
      refine ⟨by rw [hcode']; exact hnil _, fun q hq => ?_, by simp⟩
      rw [hme] at hq
      obtain rfl := Option.some.inj hq
      rw [hstack, update_self]
      exact hsched _ _ hc
    | boot hcode hme hcode' _ hstack =>
      refine ⟨by rw [hcode']; exact hnil _, fun q hq => ?_, fun q _ hsp => ?_⟩
      · rw [hme] at hq
        cases hq
      · cases hsp
        rw [hstack, update_self]
        exact hborn _
    | idle hcode hme hcode' _ _ _ hspawn _ =>
      refine ⟨by rw [hcode']; exact hnil _, fun q hq => ?_, fun q _ hsp => ?_⟩
      · rw [hme] at hq
        cases hq
      · rw [hspawn] at hsp
        cases hsp
  refine ⟨fun d => ?_, fun q => ?_⟩
  · by_cases hd : d = c
    · rw [hd]
      exact hcode
    · rw [(hother d hd).1, (hother d hd).2]
      exact hQ.code d
  · by_cases hq : s.me c = some q
    · exact hown q hq
    · by_cases hsp : e.spawn = some q
      · exact hnew q hq hsp
      · rw [hcs.stack_of_ne hq hsp]
        exact hQ.saved q

end Step

end Xv6
