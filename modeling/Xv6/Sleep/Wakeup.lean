import Xv6.Proc.Stack
import Xv6.Sched.Pass

/-!
# No wakeup is lost

A process that waits for a condition registers its channel under the condition's lock, drops the lock and
then goes to sleep. Whoever makes the condition true calls `wakeup()` before it releases the lock.

* `Pending κ p st` : the code `st` holds the lock of `κ` and has yet to come to slot `p` with a `wakeup()`;
* `Tested s` : between its test and the release of the lock, a waiter's condition is false;
* `Registered s` : a registered waiter whose condition has become true has a wakeup pending;
* `no_lost_wakeup` : so nobody sleeps for a true condition whose lock is free.
-/

namespace Xv6
open Function

variable {n : Nat}

/-- The lock of a condition that a frame holds. -/
def Frame.mon : Frame → Option Nat
  | .hold m _ => some m
  | .loop w _ | .loopCond w _ | .loopKilled w _ | .loopPre w _ | .loopPrepare w _ | .loopRelease w _ =>
    some w.cond.lock
  | _ => none

/-- The conditions that a holder made true and has not signalled. -/
def Frame.due : Frame → List Cond
  | .hold _ due | .loop _ due | .loopCond _ due | .loopKilled _ due | .loopPre _ due | .loopPrepare _ due
  | .loopRelease _ due => due
  | _ => []

/-- The condition that a waiter has found false, while it still holds the lock. -/
def Frame.tested : Frame → Option Cond
  | .loopPre w _ | .loopPrepare w _ | .loopRelease w _ => some w.cond
  | .loopKilled w _ => if w.killed = .before then none else some w.cond
  | _ => none

inductive Pending (κ : Cond) (p : Slot) : List Frame → Prop
  | due {f : Frame} {st : List Frame} (hm : f.mon = some κ.lock) (hd : κ ∈ f.due) : Pending κ p (f :: st)
  | scan {i : Slot} {f : Frame} {st : List Frame} (hi : i ≤ p) (hm : f.mon = some κ.lock) :
      Pending κ p (.visit (.wakeup κ.chan) i :: f :: st)
  | deeper {f : Frame} {st : List Frame} (h : Pending κ p st) : Pending κ p (f :: st)

section Pending
variable {κ : Cond} {p : Slot} {me : Option Slot} {st st' : List Frame} {f : Frame} {m : Nat} {ch : Choice} {e : Effect}

theorem Frame.mon_locks (h : f.mon = some m) : .mon m ∈ f.locks me := by
  cases f
  all_goals simp_all [Frame.mon, Frame.locks]

theorem Frame.mon_enters (h : f.enters me = some (.mon m)) : f.due = [] := by
  cases f
  all_goals simp_all [Frame.enters, Frame.due]

/-- Who owes a wakeup holds the lock. -/
theorem Pending.inside (h : Pending κ p st) (hs : StackOk me st) : Inside me (.mon κ.lock) st := by
  induction h with
  | @due f st hm hd =>
    refine .top (Frame.mon_locks hm) fun henter => ?_
    rw [Frame.mon_enters henter] at hd
    cases hd
  | @scan i f st _ hm =>
    refine ⟨?_, fun g r heq henter => ?_⟩
    · rw [locksOf_cons (by simp), locksOf_cons (by rintro l rfl; simp [Frame.mon] at hm)]
      exact List.mem_append_right _ (List.mem_append_left _ (Frame.mon_locks hm))
    · cases heq
      simp [Frame.enters] at henter
  | @deeper f st _ ih => exact (ih hs.2).cons f hs

/-- A frame that holds no condition's lock and scans nothing owes nothing itself. -/
theorem Pending.tail (h : Pending κ p (f :: st)) (hm : f.mon = none) (hv : ∀ j i, f ≠ .visit j i) :
    Pending κ p st := by
  cases h with
  | due hm' _ =>
    rw [hm] at hm'
    cases hm'
  | scan => exact absurd rfl (hv _ _)
  | deeper h => exact h

/-- A holder that goes on with the same lock owes what it owed. -/
theorem Pending.replace {g : Frame} (h : Pending κ p (f :: st)) (hv : ∀ j i, f ≠ .visit j i) (hm : g.mon = f.mon)
    (hd : ∀ κ ∈ f.due, κ ∈ g.due) : Pending κ p (g :: st) := by
  cases h with
  | due hm' hd' => exact .due (hm.trans hm') (hd κ hd')
  | scan => exact absurd rfl (hv _ _)
  | deeper h => exact .deeper h

theorem Pending.scanFrom {g : Frame} {chan : Chan} (h : Pending κ p (f :: st)) (hv : ∀ j i, f ≠ .visit j i)
    (hm : g.mon = f.mon) (hd : g.due = dueAfter f.due chan) :
    Pending κ p (scanFrom (.wakeup chan) (g :: st)) := by
  unfold Xv6.scanFrom
  cases h with
  | due hm' hd' =>
    by_cases hc : κ.chan = chan
    · subst hc
      exact .deeper (.scan (Fin.zero_le p) (hm.trans hm'))
    · refine .deeper (.deeper (.due (hm.trans hm') ?_))
      rw [hd]
      simp [dueAfter, hd', hc]
  | scan => exact absurd rfl (hv _ _)
  | deeper h => exact .deeper (.deeper (.deeper h))

theorem Pending.scanned (h : Pending κ p st) (hs : Scanned st st') : Pending κ p st' := by
  cases hs
  case done => exact h
  case visit => exact .deeper (.deeper h)
  case waitKilled => exact .deeper (.deeper h)
  all_goals exact .deeper h

theorem hold_pending {cond : Cond → Bool} {due : List Cond} (hp : Pending κ p (.hold m due :: st))
    (h : hold cond m due st ch = some (e, st')) : Pending κ p st' := by
  cases ch
  all_goals simp only [hold] at h
  all_goals repeat' (split at h)
  all_goals cases h
  case assign.isTrue.isTrue => exact hp.replace (by simp) rfl fun κ hκ => List.mem_cons_of_mem _ hκ
  case assign.isTrue.isFalse => exact hp
  case signal chan => exact hp.scanFrom (by simp) rfl rfl
  case await.isTrue w hw =>
    refine hp.replace (by simp) ?_ fun κ hκ => hκ
    simp [Frame.mon, hw.1]
  case unlock.isTrue hdue =>
    subst hdue
    cases hp with
    | due _ hd => cases hd
    | deeper hp => exact hp

theorem own_pending {s : State n} {q : Slot} (hp : Pending κ p (f :: st)) (hv : ∀ j i, f ≠ .visit j i)
    (h : own s q ch st f = some (e, st')) : Pending κ p st' := by
  have htail : f.mon = none → Pending κ p st := fun hm => hp.tail hm hv
  cases f
  case loopPre w due =>
    simp only [own] at h
    split at h <;> cases h
    · exact hp.scanFrom hv rfl rfl
    · exact hp.replace hv rfl fun κ hκ => hκ
  all_goals simp only [own] at h
  all_goals repeat' (split at h)
  all_goals cases h
  -- the holder of the lock of a condition
  case loop.isTrue => exact .deeper (hp.replace hv rfl fun κ hκ => hκ)
  case loop.isFalse => exact hp.replace hv rfl fun κ hκ => hκ
  case loopCond.isTrue => exact hp.replace hv rfl fun κ hκ => hκ
  case loopCond.isFalse.isTrue => exact .deeper (hp.replace hv rfl fun κ hκ => hκ)
  case loopCond.isFalse.isFalse => exact hp.replace hv rfl fun κ hκ => hκ
  case loopKilled.isTrue => exact hp.replace hv rfl fun κ hκ => hκ
  case loopKilled.isFalse.isTrue => exact hp.replace hv rfl fun κ hκ => hκ
  case loopKilled.isFalse.isFalse => exact hp.replace hv rfl fun κ hκ => hκ
  case loopPrepare => exact .deeper (.deeper (hp.replace hv rfl fun κ hκ => hκ))
  case loopRelease.isTrue hdue =>
    subst hdue
    cases hp with
    | due _ hd => cases hd
    | deeper hp => exact .deeper (.deeper (.deeper hp))
  -- code that holds none
  case reparent.isTrue => exact .deeper (.deeper ((htail rfl).scanned (scanned_reparentNext _ _)))
  case reparent.isFalse => exact (htail rfl).scanned (scanned_reparentNext _ _)
  case waitScan.isFalse => exact (htail rfl).scanned (scanned_waitNext _ _ _ _)
  case waitChild.isFalse => exact (htail rfl).scanned (scanned_waitNext _ _ _ _)
  all_goals
    have hst := htail rfl
    repeat (first | exact hst | apply Pending.deeper)

/-- What the code of a CPU owes it still owes after a step, unless it has come to the slot. -/
theorem exec_pending {s : State n} {c : Fin n} (hp : Pending κ p st) (hchan : (s.proc p).chan = κ.chan)
    (h : ExecCase s c me ch st e st') : Pending κ p st' ∨ e.write = some (p, .wakeup) := by
  cases h with
  | enter => cases hp
  | acquire hfree => exact Or.inl (hp.tail rfl (by simp))
  | twice hheld => exact Or.inl (.deeper hp)
  | @visit j i st =>
    unfold visit
    cases hp with
    | due hm _ => cases hm
    | @scan _ f r hi hm =>
      by_cases hip : i = p
      · subst hip
        right
        simp [Job.body, wakeup, hchan]
      · left
        have hlt : i.val + 1 < nproc := by
          have h1 := Fin.lt_def.mp (lt_of_le_of_ne hi hip)
          have h2 := p.isLt
          omega
        simp only [Job.body, wakeup, scanNext]
        rw [dif_pos hlt]
        exact .deeper (.scan (Fin.le_def.mpr (Fin.lt_def.mp (lt_of_le_of_ne hi hip))) hm)
    | deeper hp =>
      left
      split
      · exact .deeper hp
      · exact hp.scanned (scanned_scanNext _ _)
  | hold h => exact Or.inl (hold_pending hp h)
  | @own q f _ _ _ hme h =>
    refine Or.inl (own_pending hp ?_ h)
    rintro j i rfl
    simp [Xv6.own] at h

theorem interrupt_pending (hp : Pending κ p st) (h : interrupt me st ch = some st') : Pending κ p st' := by
  cases ch
  all_goals simp only [interrupt] at h
  case timer =>
    obtain ⟨q, rfl, rfl⟩ := Option.map_eq_some_iff.mp h
    exact .deeper (.deeper hp)
  all_goals cases h
  all_goals exact .deeper (.deeper hp)

end Pending

/-! ## What a waiter has tested -/

/-- The conditions that the frames of a stack have found false are false. -/
def AllFalse (cond : Cond → Bool) (st : List Frame) : Prop :=
  ∀ f ∈ st, ∀ κ, f.tested = some κ → cond κ = false

section AllFalse
variable (cond : Cond → Bool) (st : List Frame)

@[simp] theorem allFalse_nil : AllFalse cond [] ↔ True := by simp [AllFalse]

@[simp] theorem allFalse_cons (f : Frame) :
    AllFalse cond (f :: st) ↔ (∀ κ, f.tested = some κ → cond κ = false) ∧ AllFalse cond st := by
  simp [AllFalse]

@[simp] theorem allFalse_skips : Skips (AllFalse cond) := skips fun f st hf => by
  have hnone : f.tested = none := by cases f <;> first | rfl | cases hf
  simp [hnone]

end AllFalse

section Exec
variable {s : State n} {c : Fin n} {me : Option Slot} {ch : Choice} {st st' : List Frame} {e : Effect}

theorem exec_allFalse (h : ExecCase s c me ch st e st') (hst : AllFalse s.cond st) : AllFalse s.cond st' := by
  cases h with
  | enter hme h =>
    cases ch
    all_goals simp only [enter] at h
    all_goals repeat' (split at h)
    all_goals cases h
    all_goals simp [Frame.tested]
  | acquire hfree => exact ((allFalse_cons _ _ _).mp hst).2
  | twice hheld => exact (allFalse_cons _ _ _).mpr ⟨by simp [Frame.tested], hst⟩
  | @visit j i st =>
    have hst' := ((allFalse_cons _ _ _).mp hst).2
    unfold visit
    dsimp only
    split
    · exact (allFalse_cons _ _ _).mpr ⟨by simp [Frame.tested], hst'⟩
    · rwa [(allFalse_skips _).2.1]
  | hold h =>
    cases ch
    all_goals simp only [hold] at h
    all_goals repeat' (split at h)
    all_goals cases h
    all_goals simp_all [Frame.tested]
  | @own q f st st' e hme h =>
    obtain ⟨hf, hst'⟩ := (allFalse_cons _ _ _).mp hst
    cases f
    all_goals simp only [own] at h
    all_goals repeat' (split at h)
    all_goals cases h
    all_goals simp_all [Frame.tested]

/-- Conditions change only under their lock, and who makes one true owes its wakeup. -/
theorem exec_assign {κ : Cond} {b : Bool} (h : ExecCase s c me ch st e st') (ha : e.assign = some (κ, b)) :
    ∃ due due' r, st = .hold κ.lock due :: r ∧ st' = .hold κ.lock due' :: r ∧
      (b = true → s.cond κ = false → κ ∈ due') := by
  cases h with
  | enter hme h =>
    cases ch
    all_goals simp only [enter] at h
    all_goals repeat' (split at h)
    all_goals cases h
    all_goals cases ha
  | acquire hfree => cases ha
  | twice hheld => cases ha
  | visit => cases ha
  | hold h =>
    cases ch
    all_goals simp only [hold] at h
    all_goals repeat' (split at h)
    all_goals cases h
    all_goals cases ha
    case assign.isTrue.isTrue.refl.refl hm _ =>
      subst hm
      exact ⟨_, _, _, rfl, rfl, fun _ _ => List.mem_cons_self⟩
    case assign.isTrue.isFalse.refl.refl hm hno =>
      subst hm
      exact ⟨_, _, _, rfl, rfl, fun hb hc => absurd ⟨hb, hc⟩ hno⟩
  | @own q f st st' e hme h =>
    cases f
    all_goals simp only [own] at h
    all_goals repeat' (split at h)
    all_goals cases h
    all_goals cases ha

/-- A process registers its channel, and nothing else, with `sleep_prepare()`. -/
theorem exec_sleepPrepare {q : Slot} {chan : Chan} (h : ExecCase s c me ch st e st')
    (hw : e.write = some (q, .sleepPrepare chan)) : me = some q ∧ st = .sleepPrepare chan :: st' := by
  cases h with
  | enter hme h =>
    cases ch
    all_goals simp only [enter] at h
    all_goals repeat' (split at h)
    all_goals cases h
    all_goals cases hw
  | acquire hfree => cases hw
  | twice hheld => cases hw
  | @visit j i st =>
    simp only [visit, Option.map_eq_some_iff] at hw
    obtain ⟨op, hop, heq⟩ := hw
    cases heq
    cases scanWrite_of_body hop
  | hold h =>
    cases ch
    all_goals simp only [hold] at h
    all_goals repeat' (split at h)
    all_goals cases h
    all_goals cases hw
  | @own q f st st' e hme h =>
    cases f
    all_goals simp only [own] at h
    all_goals repeat' (split at h)
    all_goals cases h
    all_goals cases hw
    exact ⟨hme, rfl⟩

/-- A process comes to its `sleep()` by releasing the lock. -/
theorem exec_loopWoken {w : WaitLoop} (h : ExecCase s c me ch st e st') (hw : .loopWoken w ∈ st') :
    .loopWoken w ∈ st ∨ ∃ due r, st = .loopRelease w due :: r := by
  have hskip := mem_skips (f := .loopWoken w) rfl
  cases h with
  | enter hme h =>
    cases ch
    all_goals simp only [enter] at h
    all_goals repeat' (split at h)
    all_goals cases h
    all_goals simp [hskip] at hw
  | acquire hfree => exact Or.inl (List.mem_cons_of_mem _ hw)
  | twice hheld => exact Or.inl (by simpa using hw)
  | @visit j i st =>
    refine Or.inl (List.mem_cons_of_mem _ ?_)
    unfold visit at hw
    dsimp only at hw
    split at hw
    · simpa using hw
    · simpa only [hskip] using hw
  | hold h =>
    left
    cases ch
    all_goals simp only [hold] at h
    all_goals repeat' (split at h)
    all_goals cases h
    all_goals simp_all
  | @own q f st st' e hme h =>
    cases f
    case loopPre w' due =>
      left
      simp only [own] at h
      split at h <;> cases h
      all_goals simpa [hskip] using hw
    case loopRelease w' due =>
      simp only [own] at h
      split at h <;> cases h
      simp only [List.mem_cons, reduceCtorEq, false_or, Frame.loopWoken.injEq] at hw
      rcases hw with rfl | hw
      · exact Or.inr ⟨_, _, rfl⟩
      · exact Or.inl (List.mem_cons_of_mem _ hw)
    all_goals refine Or.inl (List.mem_cons_of_mem _ ?_)
    all_goals simp only [own] at h
    all_goals repeat' (split at h)
    all_goals cases h
    all_goals simpa [hskip] using hw

end Exec

/-! ## The invariants of the machine -/

/-- A waiter between its test and the release of the lock. -/
def Tested (s : State n) : Prop := ∀ c, AllFalse s.cond (s.code c)

/-- A registered waiter whose condition has become true. -/
def Registered (s : State n) : Prop :=
  ∀ p w, .loopWoken w ∈ s.stack p → (s.proc p).chan = w.cond.chan → w.cond.chan ≠ .null →
    s.cond w.cond = true → ∃ c, Pending w.cond p (s.code c)

theorem Frame.tested_locks (me : Option Slot) {f : Frame} {κ : Cond} (h : f.tested = some κ) :
    .mon κ.lock ∈ f.locks me ∧ f.enters me ≠ some (.mon κ.lock) := by
  cases f
  all_goals simp only [Frame.tested] at h
  all_goals try split at h
  all_goals cases h
  all_goals simp [Frame.locks, Frame.enters]

section Step
variable {s t : State n} {c : Fin n} {ch : Choice} {e : Effect} {κ : Cond} {p : Slot} {w : WaitLoop}

/-- A condition found false is not assigned: its lock is held by the one who tested it. -/
theorem not_assigned (hs : Reachable s) (hcs : CodeStep s t c ch e)
    (hother : ∀ d, d ≠ c → t.code d = s.code d ∧ t.me d = s.me d) {d : Fin n} {f : Frame} {b : Bool} (hf : f ∈ t.code d)
    (ht : f.tested = some κ) : e.assign ≠ some (κ, b) := by
  intro ha
  have hi := inv_of_reachable hs
  have hok := stackOk_of_reachable hs
  cases hcs with
  | exec hx _ hcode =>
    obtain ⟨due, due', r, hst, hst', -⟩ := exec_assign hx ha
    have hheld := held_code (s := s) (c := c) (by rw [hst]; simp)
    have hokc := hok.code c
    rw [hst] at hheld hokc
    obtain ⟨hl, henter⟩ := Frame.tested_locks (s.me c) ht
    by_cases hd : d = c
    · subst hd
      rw [hcode, hst'] at hf
      have hr : f ∈ r := by
        rcases List.mem_cons.mp hf with rfl | hr
        · simp [Frame.tested] at ht
        · exact hr
      have hnd := hi.owned.nodup d
      rw [hheld, locksOf_cons (by simp)] at hnd
      simp only [Frame.locks, List.singleton_append, List.nodup_cons] at hnd
      exact hnd.1 (mem_locksOf hokc.2 hr hl henter)
    · rw [(hother d hd).1] at hf
      obtain ⟨hl, henter⟩ := Frame.tested_locks (s.me d) ht
      refine hd (hi.owned.unique (mem_held_of_code (mem_locksOf (hok.code d) hf hl henter)) ?_)
      rw [hheld, locksOf_cons (by simp)]
      simp [Frame.locks]
  | idle _ _ _ _ _ _ _ hassign =>
    rw [hassign] at ha
    cases ha
  | interrupt => cases ha
  | panic => cases ha
  | dispatch => cases ha
  | swtch => cases ha
  | boot => cases ha

theorem interrupt_allFalse {cond : Cond → Bool} {me : Option Slot} {st st' : List Frame}
    (h : interrupt me st ch = some st') (hst : AllFalse cond st) : AllFalse cond st' := by
  cases ch
  all_goals simp only [interrupt] at h
  case timer =>
    obtain ⟨q, rfl, rfl⟩ := Option.map_eq_some_iff.mp h
    simp [Frame.tested, hst]
  all_goals cases h
  all_goals simp [Frame.tested, hst]

theorem Tested.code (hs : Reachable s) (ht : Tested s) (hcs : CodeStep s t c ch e) :
    AllFalse s.cond (t.code c) := by
  have hc := ht c
  cases hcs with
  | exec hx _ hcode =>
    rw [hcode]
    exact exec_allFalse hx hc
  | interrupt hx _ hcode =>
    rw [hcode]
    exact interrupt_allFalse hx hc
  | panic _ hcode hcode' =>
    rw [hcode] at hc
    rw [hcode']
    exact (allFalse_cons _ _ _).mpr ⟨by simp [Frame.tested], hc⟩
  | @dispatch p _ _ hcode' _ hsaved =>
    -- a process that holds only its own lock is in no such section
    rw [hcode']
    intro f hf κ hκ
    obtain ⟨hl, henter⟩ := Frame.tested_locks (some p) hκ
    cases hsaved.lock_eq ((stackOk_of_reachable hs).saved p) hf hl henter
  | swtch _ _ _ hcode' => simp [hcode']
  | boot _ _ hcode' => simp [hcode']
  | idle _ _ hcode' => simp [hcode']

theorem condAfter_of_ne {cond : Cond → Bool} {a : Option (Cond × Bool)} (h : ∀ b, a ≠ some (κ, b)) :
    condAfter cond a κ = cond κ := by
  cases a with
  | none => rfl
  | some x =>
    refine update_of_ne ?_ _ _
    rintro rfl
    exact h x.2 rfl

theorem Tested.step (hs : Reachable s) (ht : Tested s) (h : Xv6.step s (c, ch) = some t) : Tested t := by
  obtain ⟨e, hcs, -, hcond, hother⟩ := (inv_of_reachable hs).code_step h
  intro d f hf κ hκ
  rw [hcond, condAfter_of_ne fun b => not_assigned hs hcs hother hf hκ]
  by_cases hd : d = c
  · subst hd
    exact ht.code hs hcs f hf κ hκ
  · rw [(hother d hd).1] at hf
    exact ht d f hf κ hκ

theorem tested_of_reachable (h : Reachable s) : Tested s := by
  refine Automaton.Reachable.invariant (P := Tested) ?_ ?_ h
  · intro c
    exact (allFalse_nil _).mpr trivial
  · rintro s ⟨c, ch⟩ t hs ht hstep
    exact ht.step hs hstep

theorem schedulerVisit_chan (p : Proc) : (schedulerVisit p).chan = p.chan := by
  rw [schedulerVisit_eq]

/-- How the channel of a slot changes. -/
theorem TableWrite.chan {i : Slot} {op : Op} (h : TableWrite s c i op) :
    (op.apply (s.proc i)).chan = (s.proc i).chan ∨ (op.apply (s.proc i)).chan = .null ∨
      ∃ chan, op = .sleepPrepare chan := by
  cases h with
  | visit => exact Or.inl (schedulerVisit_chan _)
  | dispatch => exact Or.inl rfl
  | userinit _ _ hok =>
    left
    simp only [Op.apply, Xv6.allocproc] at hok ⊢
    split_ifs at hok ⊢
    rfl
  | leave _ _ hop => cases hop <;> exact Or.inl rfl
  | self _ _ hop =>
    cases hop with
    | sleepPrepare _ => exact Or.inr (Or.inr ⟨_, rfl⟩)
    | setkilled => exact Or.inl rfl
    | resize => exact Or.inl rfl
  | scan hop =>
    cases hop with
    | wakeup _ => exact Or.inr (Or.inl rfl)
    | kkill _ => exact Or.inl rfl
    | ksetpriority _ _ => exact Or.inl rfl
  | allocproc _ =>
    simp only [Op.apply, Xv6.allocproc]
    split_ifs
    · exact Or.inr (Or.inl rfl)
    · exact Or.inr (Or.inl rfl)
    · exact Or.inl rfl
  | inherit => exact Or.inl rfl
  | forkfail => exact Or.inr (Or.inl rfl)
  | setParent => exact Or.inl rfl
  | publish => exact Or.inl rfl
  | reparent => exact Or.inl rfl
  | reap => exact Or.inr (Or.inl rfl)

/-- A process that is about to sleep in the loop has not just registered: a registration by
`sleep_prepare()` stands on the release of the lock. -/
theorem CodeStep.chan_of_loopWoken (hs : Reachable s) (hcs : CodeStep s t c ch e) {chan : Chan}
    (hw : .loopWoken w ∈ t.stack p) : e.write ≠ some (p, .sleepPrepare chan) := by
  intro hwr
  cases hcs with
  | exec hx _ _ _ hown _ =>
    obtain ⟨hme, hst⟩ := exec_sleepPrepare hx hwr
    have hok := (stackOk_of_reachable hs).code c
    rw [hst] at hok
    rw [hown p hme] at hw
    rcases hok.1 with h | ⟨w', due, -, h⟩ | ⟨addr, q, -, -, h⟩
    · rw [h] at hw
      cases hw
    · rw [h] at hw
      simp at hw
    · rw [h] at hw
      simp at hw
  | idle _ _ _ _ _ hno =>
    rcases hno with hno | ⟨i, hno⟩
    · rw [hno] at hwr
      cases hwr
    · rw [hno] at hwr
      cases hwr
  | interrupt => cases hwr
  | panic => cases hwr
  | dispatch => cases hwr
  | swtch => cases hwr
  | boot => cases hwr

theorem interrupt_loopWoken {me : Option Slot} {st st' : List Frame} (h : interrupt me st ch = some st')
    (hw : .loopWoken w ∈ st') : .loopWoken w ∈ st := by
  cases ch
  all_goals simp only [interrupt] at h
  case timer =>
    obtain ⟨q, rfl, rfl⟩ := Option.map_eq_some_iff.mp h
    simpa using hw
  all_goals cases h
  all_goals simpa [mem_skips (f := .loopWoken w) rfl] using hw

/-- A waiter was registered before the step, or has just released the lock of its condition. -/
theorem CodeStep.loopWoken (hcs : CodeStep s t c ch e) (hw : .loopWoken w ∈ t.stack p) :
    .loopWoken w ∈ s.stack p ∨ ((∃ due r, s.code c = .loopRelease w due :: r) ∧ e.assign = none) := by
  cases hcs.stackStep p with
  | same h => exact Or.inl (h ▸ hw)
  | born _ h =>
    rw [h] at hw
    simp at hw
  | exec hme hx h =>
    rw [h] at hw
    rcases exec_loopWoken hx hw with hw | ⟨due, r, hst⟩
    · exact Or.inl hw
    · refine Or.inr ⟨⟨due, r, by rw [code_switched (me_eq_some.mp hme), hst]⟩, ?_⟩
      cases ha : e.assign with
      | none => rfl
      | some x =>
        obtain ⟨_, _, _, hst', -⟩ := exec_assign (κ := x.1) (b := x.2) hx ha
        rw [hst] at hst'
        cases hst'
  | interrupt _ hx _ h => exact Or.inl (interrupt_loopWoken hx (h ▸ hw))
  | panic _ hst _ h =>
    rw [h] at hw
    rw [hst]
    exact Or.inl (by simpa using hw)
  | swtch _ hst _ h =>
    rw [h] at hw
    rw [hst]
    exact Or.inl (List.mem_cons_of_mem _ hw)

/-- What CPU `c` owes it still owes after its step, unless it has come to the slot. -/
theorem CodeStep.pending (hs : Reachable s) (hcs : CodeStep s t c ch e) (hp : Pending κ p (s.code c))
    (hchan : (s.proc p).chan = κ.chan) : Pending κ p (t.code c) ∨ e.write = some (p, .wakeup) := by
  cases hcs with
  | exec hx _ hcode =>
    rw [hcode]
    exact exec_pending hp hchan hx
  | interrupt hx _ hcode =>
    rw [hcode]
    exact Or.inl (interrupt_pending hp hx)
  | panic _ hcode hcode' =>
    rw [hcode] at hp
    rw [hcode']
    exact Or.inl (.deeper hp)
  | swtch _ _ hheld _ =>
    -- `sched()` is not called with a condition's lock held
    have hmem := mem_held_of_code (hp.inside ((stackOk_of_reachable hs).code c)).1
    rw [hheld] at hmem
    cases List.mem_singleton.mp hmem
  | dispatch hcode => rw [hcode] at hp; cases hp
  | boot hcode => rw [hcode] at hp; cases hp
  | idle hcode => rw [hcode] at hp; cases hp

theorem Registered.step (hs : Reachable s) (hr : Registered s) (h : Xv6.step s (c, ch) = some t) :
    Registered t := by
  have hi := inv_of_reachable hs
  obtain ⟨e, hcs, hwrite, hcond, hother⟩ := hi.code_step h
  intro p w hw hchan hnull htrue
  rcases hcs.loopWoken hw with hw' | ⟨⟨due, r, hcode⟩, hassign⟩
  · -- the slot had registered its channel before the step
    have hchan' : (s.proc p).chan = w.cond.chan := by
      rcases hi.slot_step h p with ⟨-, hp⟩ | ⟨op, hwr, htw, hp⟩
      · rwa [hp] at hchan
      · rw [hp] at hchan
        rcases htw.chan with h1 | h1 | ⟨chan, rfl⟩
        · rwa [h1] at hchan
        · rw [h1] at hchan
          exact absurd hchan.symm hnull
        · exact absurd (hwrite.symm.trans hwr) (hcs.chan_of_loopWoken hs hw)
    by_cases hbefore : s.cond w.cond = true
    · obtain ⟨d, hd⟩ := hr p w hw' hchan' hnull hbefore
      by_cases hdc : d = c
      · subst hdc
        rcases hcs.pending hs hd hchan' with hp | hwr
        · exact ⟨d, hp⟩
        · -- the wakeup has come, and cleared the channel
          exfalso
          rcases hi.slot_step h p with ⟨hno, -⟩ | ⟨op, hwr', -, hp⟩
          · exact hno _ (hwrite.trans hwr)
          · rw [hwrite, hwr] at hwr'
            cases hwr'
            rw [hp] at hchan
            exact hnull hchan.symm
      · exact ⟨d, by rwa [(hother d hdc).1]⟩
    · -- the step has made the condition true
      have hassign : e.assign = some (w.cond, true) := by
        rw [hcond] at htrue
        cases ha : e.assign with
        | none =>
          rw [ha] at htrue
          exact absurd htrue hbefore
        | some x =>
          rw [ha] at htrue
          by_cases hx : w.cond = x.1
          · simp only [condAfter] at htrue
            rw [hx, update_self] at htrue
            rw [hx, ← htrue]
          · rw [condAfter, update_of_ne hx] at htrue
            exact absurd htrue hbefore
      refine ⟨c, ?_⟩
      cases hcs with
      | exec hx _ hcode =>
        obtain ⟨due, due', r, -, hst', hdue⟩ := exec_assign hx hassign
        rw [hcode, hst']
        exact .due rfl (hdue rfl (by simpa using hbefore))
      | idle _ _ _ _ _ _ _ hno =>
        rw [hno] at hassign
        cases hassign
      | interrupt => cases hassign
      | panic => cases hassign
      | dispatch => cases hassign
      | swtch => cases hassign
      | boot => cases hassign
  · -- the lock has just been released, and the condition was false under it
    exfalso
    have hfalse := tested_of_reachable hs c (.loopRelease w due) (by rw [hcode]; exact List.mem_cons_self)
      w.cond rfl
    rw [hcond, hassign, condAfter, hfalse] at htrue
    cases htrue

theorem registered_of_reachable (h : Reachable s) : Registered s := by
  refine Automaton.Reachable.invariant (P := Registered) ?_ ?_ h
  · intro p w hw
    cases hw
  · rintro s ⟨c, ch⟩ t hs hr hstep
    exact hr.step hs hstep

end Step

/-- A sleeper has a channel. -/
theorem sleeping_chan {s : State n} (h : Reachable s) (p : Slot) :
    (s.proc p).state = .sleeping → (s.proc p).chan ≠ .null := by
  refine table_invariant (P := fun p => p.state = .sleeping → p.chan ≠ .null) (by simp [procinit]) ?_ h p
  intro s c i op _ hp htw
  cases htw with
  | visit =>
    rw [show Op.apply .visit (s.proc i) = schedulerVisit (s.proc i) from rfl, schedulerVisit_state,
      schedulerVisit_chan]
    exact hp i
  | dispatch => simp [Op.apply, schedulerDispatch]
  | userinit => simp [Op.apply]
  | leave _ _ hop =>
    cases hop with
    | sleep hch => exact fun _ => hch
    | yield => simp [Op.apply]
    | kexit => simp [Op.apply]
  | self _ hrun hop =>
    rw [hop.state, hrun]
    simp
  | scan hop =>
    cases hop with
    | wakeup _ =>
      simp only [Op.apply]
      split_ifs with hs
      · simp
      · exact fun h => absurd h hs
    | kkill _ =>
      simp only [Op.apply]
      split_ifs with hs
      · simp
      · exact hp i
    | ksetpriority _ _ => exact hp i
  | @allocproc _ tf pt _ =>
    rw [show Op.apply (.allocproc s.nextpid tf pt) (s.proc i) = (Xv6.allocproc s.nextpid tf pt (s.proc i)).1
      from rfl, allocproc_state]
    split_ifs <;> simp
  | inherit _ _ => exact hp i
  | forkfail => simp [Op.apply, freeproc]
  | setParent => exact hp i
  | publish => simp [Op.apply]
  | reparent => exact hp i
  | reap => simp [Op.apply, freeproc]

/-- **No wakeup is lost.** Nobody sleeps in a wait loop, registered on its channel, while the condition
holds and its lock is free; and every sleeper has a channel. -/
theorem no_lost_wakeup {s : State n} (hs : Reachable s) :
    (∀ (κ : Cond) (w : WaitLoop) (p : Slot), w.cond = κ → s.lock (.mon κ.lock) = none → s.cond κ = true →
      (s.proc p).state = .sleeping → .loopWoken w ∈ s.stack p → (s.proc p).chan ≠ κ.chan) ∧
    ∀ p, (s.proc p).state = .sleeping → (s.proc p).chan ≠ .null := by
  refine ⟨?_, sleeping_chan hs⟩
  rintro κ w p rfl hfree hcond hstate hw hchan
  have hnull : w.cond.chan ≠ .null := hchan ▸ sleeping_chan hs p hstate
  obtain ⟨c, hp⟩ := registered_of_reachable hs p w hw hchan hnull hcond
  have hheld := mem_held_of_code (hp.inside ((stackOk_of_reachable hs).code c)).1
  exact (inv_of_reachable hs).owned.not_mem_of_free hfree c hheld

/-! The first process waits for a sleep lock; then an interrupt handler frees the lock and wakes it. -/

def asleep : State 1 :=
  Automaton.runD step started
    ([(0, .run), (0, .lock 1), (0, .run), (0, .await (acquiresleep 1))] ++ List.replicate 11 (0, .run))

def released : State 1 :=
  Automaton.runD step asleep
    ([(0, .handler 1), (0, .run), (0, .assign (acquiresleep 1).cond true), (0, .signal (.addr 1))] ++
      List.replicate 128 (0, .run) ++ [(0, .unlock)])

theorem reachable_released : Reachable released := by
  have hruns : (Automaton.run step started ([(0, .run), (0, .lock 1), (0, .run), (0, .await (acquiresleep 1))] ++
        List.replicate 11 (0, .run))).isSome = true ∧
      (Automaton.run step asleep ([(0, .handler 1), (0, .run), (0, .assign (acquiresleep 1).cond true),
        (0, .signal (.addr 1))] ++ List.replicate 128 (0, .run) ++ [(0, .unlock)])).isSome = true := by decide +kernel
  exact Automaton.Reachable.trans (Automaton.Reachable.trans reachable_started (Automaton.run_eq_runD hruns.1))
    (Automaton.run_eq_runD hruns.2)

theorem no_lost_wakeup_released : (asleep.proc 0).state = .sleeping ∧ (asleep.proc 0).chan = .addr 1 ∧
    released.lock (.mon 1) = none ∧ released.cond (acquiresleep 1).cond = true ∧
    .loopWoken (acquiresleep 1) ∈ released.stack 0 ∧
    ¬ ((released.proc 0).state = .sleeping ∧ (released.proc 0).chan = .addr 1) := by
  have hfacts : ((asleep.proc 0).state = .sleeping ∧ (asleep.proc 0).chan = .addr 1) ∧
      released.lock (.mon 1) = none ∧ released.cond (acquiresleep 1).cond = true ∧
      .loopWoken (acquiresleep 1) ∈ released.stack 0 := by decide +kernel
  obtain ⟨⟨hasleep, haddr⟩, hfree, hcond, hframe⟩ := hfacts
  refine ⟨hasleep, haddr, hfree, hcond, hframe, ?_⟩
  rintro ⟨hstate, hchan⟩
  have hlock : (acquiresleep 1).cond.lock = 1 := rfl
  have hfree' := (congrArg released.lock (congrArg Lock.mon hlock)).trans hfree
  exact (no_lost_wakeup reachable_released).1 (acquiresleep 1).cond (acquiresleep 1) 0 rfl hfree' hcond
    hstate hframe hchan

end Xv6
