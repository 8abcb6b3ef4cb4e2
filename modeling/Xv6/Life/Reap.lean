import Xv6.Life.Family
import Xv6.Sleep.Kill
import Xv6.Sleep.Wakeup

/-!
# Exit and wait

A process that exits stays ZOMBIE, with its pid and status, until its parent's `kwait()` frees it; `kexit()` wakes
the parent before it becomes ZOMBIE, and holds `wait_lock` from there on.

* `InWait st` : the thread has called `sleep_prepare()` in `kwait()` and not returned to the scan;
* `WakePending s P` : somebody inside a section of `wait_lock` is about to wake process `P`;
* `wakePending_of_reachable` : a registered parent with a child that is ZOMBIE, or becoming so, is about to be woken;
* `exactly_once_reaping` : the guarantees of `kexit()` and `kwait()` together.
-/

namespace Xv6

variable {n : Nat} {s : State n} {p : Slot}

/-- The frames of `kwait()` from `sleep_prepare()` to the next scan. -/
def Frame.waiting : Frame → Bool
  | .waitRelease _ | .waitWoken _ => true
  | _ => false

def Frame.preparing : Frame → Bool
  | .sleepPrepare _ => true
  | _ => false

def InWait (st : List Frame) : Prop := st.any Frame.waiting = true ∧ st.any Frame.preparing = false

/-- A wakeup of `P` by a scan that has not passed `P` yet, under `wait_lock`. -/
def WakePending (s : State n) (P : Slot) : Prop :=
  ∃ c i g, g ∈ s.code c ∧ .wait ∈ g.locks (s.me c) ∧ g.enters (s.me c) ≠ some .wait ∧
    .visit (.wakeup (.proc P)) i ∈ s.code c ∧ i ≤ P

/-- The process is ZOMBIE, or has woken its parent to become so. -/
def Gone (s : State n) (p : Slot) : Prop :=
  (s.proc p).state = .zombie ∨ ∃ status, .exitZombie status ∈ s.stack p

/-! ## What a thread's step does to its stack -/

section Exec
variable {s : State n} {c : Fin n} {me : Option Slot} {p : Slot} {ch : Choice} {st st' : List Frame} {e : Effect}
  {f : Frame}

/-- The frames below the top stay. -/
theorem exec_tail {g : Frame} (h : ExecCase s c me ch (f :: st) e st') (hg : g ∈ st) : g ∈ st' := by
  cases h with
  | acquire => exact hg
  | twice => simp [hg]
  | visit =>
    unfold visit
    dsimp only
    split
    · simp [hg]
    · exact (scanned_scanNext _ _).mem hg
  | hold h =>
    cases ch
    all_goals simp only [hold] at h
    all_goals repeat' (split at h)
    all_goals cases h
    all_goals simp [scanFrom, hg]
  | own hme h =>
    cases f
    all_goals simp only [own] at h
    all_goals repeat' (split at h)
    all_goals cases h
    all_goals simp [scanFrom, hg, (scanned_reparentNext _ _).mem hg, (scanned_waitNext _ _ _ _).mem hg]

/-- A thread about to become ZOMBIE was so before, or is about to wake its parent. -/
theorem exec_exitZombie {status : Int} (h : ExecCase s c (some p) ch st e st') (hz : .exitZombie status ∈ st') :
    .exitZombie status ∈ st ∨ (∃ r, st = .exitWakeup status :: r ∧
      st' = scanFrom (.wakeup (.ofProc (s.proc p).parent)) (.want (.proc p) :: .exitZombie status :: r)) := by
  have hskip := mem_skips (f := .exitZombie status) rfl
  cases h with
  | enter _ h =>
    cases ch
    all_goals simp only [enter] at h
    all_goals repeat' (split at h)
    all_goals cases h
    all_goals simp [hskip] at hz
  | acquire hfree => exact Or.inl (List.mem_cons_of_mem _ hz)
  | twice hheld => exact Or.inl (by simpa using hz)
  | @visit j i st =>
    left
    unfold visit at hz
    dsimp only at hz
    split at hz
    · simpa using hz
    · simp only [hskip] at hz
      exact List.mem_cons_of_mem _ hz
  | hold h =>
    left
    cases ch
    all_goals simp only [hold] at h
    all_goals repeat' (split at h)
    all_goals cases h
    all_goals simpa [hskip] using hz
  | @own q f st st' e hme h =>
    obtain rfl := Option.some.inj hme
    cases f
    case exitWakeup status' =>
      simp only [own] at h
      cases h
      simp only [hskip] at hz
      rcases List.mem_cons.mp (List.mem_of_ne_of_mem (by simp) hz) with hz | hz
      · cases hz
        exact Or.inr ⟨st, rfl, rfl⟩
      · exact Or.inl (List.mem_cons_of_mem _ hz)
    all_goals refine Or.inl (List.mem_cons_of_mem _ ?_)
    all_goals simp only [own] at h
    all_goals repeat' (split at h)
    all_goals cases h
    all_goals simpa [hskip] using hz

theorem Frame.waiting_scanning (f : Frame) (h : f.scanning = true) : f.waiting = false := by
  cases f <;> first | rfl | cases h

theorem Frame.preparing_scanning (f : Frame) (h : f.scanning = true) : f.preparing = false := by
  cases f <;> first | rfl | cases h

theorem inWait_cons (h1 : f.waiting = false) (h2 : f.preparing = false) : InWait (f :: st) ↔ InWait st := by
  simp [InWait, h1, h2]

@[simp] theorem inWait_skips : Skips InWait :=
  skips fun f _ hf => propext (inWait_cons (f.waiting_scanning hf) (f.preparing_scanning hf))

/-- A thread that is registered in `kwait()` was so before, or has just registered. -/
theorem own_inWait (hs : StackOk (some p) (f :: st)) (h : own s p ch st f = some (e, st')) (hr : InWait st') :
    InWait (f :: st) ∨ (e.write = some (p, .sleepPrepare (.proc p)) ∧
      ∃ chan addr, f = .sleepPrepare chan ∧ st = [.waitRelease addr] ∧ st' = st) := by
  obtain ⟨hf, -⟩ := hs
  cases f
  all_goals simp only [own] at h
  all_goals repeat' (split at h)
  all_goals cases h
  case sleepPrepare.isTrue => simp [InWait, Frame.preparing] at hr
  case sleepPrepare.isFalse =>
    rcases hf with rfl | ⟨w, due, -, rfl⟩ | ⟨addr, q, hq, rfl, rfl⟩
    · simp [InWait] at hr
    · simp [InWait, Frame.waiting] at hr
    · obtain rfl := Option.some.inj hq
      exact Or.inr ⟨rfl, _, addr, rfl, rfl, rfl⟩
  case yield => exact Or.inl ((inWait_cons rfl rfl).mpr ((inWait_cons rfl rfl).mp ((inWait_cons rfl rfl).mp hr)))
  case sleep.isTrue =>
    exact Or.inl ((inWait_cons rfl rfl).mpr ((inWait_cons rfl rfl).mp ((inWait_cons rfl rfl).mp hr)))
  case sleep.isFalse => exact Or.inl ((inWait_cons rfl rfl).mpr hr)
  case unlockSelf => exact Or.inl ((inWait_cons rfl rfl).mpr hr)
  all_goals simp only [Frame.Below, Frame.base, forall_const] at hf
  all_goals try subst hf
  all_goals try simp only [inWait_skips] at hr
  all_goals simp [InWait, Frame.waiting, Frame.preparing] at hr ⊢

theorem exec_inWait (hs : StackOk (some p) st) (h : ExecCase s c (some p) ch st e st') (hr : InWait st') :
    InWait st ∨ (e.write = some (p, .sleepPrepare (.proc p)) ∧
      ∃ chan addr, st = [.sleepPrepare chan, .waitRelease addr] ∧ st' = [.waitRelease addr]) := by
  cases h with
  | enter _ h =>
    cases ch
    all_goals simp only [enter] at h
    all_goals repeat' (split at h)
    all_goals cases h
    all_goals try simp only [inWait_skips] at hr
    all_goals simp [InWait, Frame.waiting] at hr
  | acquire hfree => exact Or.inl ((inWait_cons rfl rfl).mpr hr)
  | twice hheld => exact Or.inl ((inWait_cons rfl rfl).mp hr)
  | @visit j i st =>
    left
    rw [inWait_cons rfl rfl]
    unfold visit at hr
    dsimp only at hr
    split at hr
    · exact (inWait_cons rfl rfl).mp hr
    · rwa [inWait_skips.2.1] at hr
  | @hold m due st st' e h =>
    have hhold : ∀ m due r, InWait (.hold m due :: r) ↔ InWait r := fun _ _ _ => inWait_cons rfl rfl
    have hloop : ∀ w due r, InWait (.loop w due :: r) ↔ InWait r := fun _ _ _ => inWait_cons rfl rfl
    left
    cases ch
    all_goals simp only [hold] at h
    all_goals repeat' (split at h)
    all_goals cases h
    all_goals simpa only [hhold, hloop, inWait_skips] using hr
  | own hme h =>
    obtain rfl := Option.some.inj hme
    rcases own_inWait hs h hr with hr | ⟨hw, chan, addr, rfl, rfl, rfl⟩
    · exact Or.inl hr
    · exact Or.inr ⟨hw, chan, addr, rfl, rfl⟩

theorem interrupt_inWait (h : interrupt me st ch = some st') : InWait st' ↔ InWait st := by
  cases ch
  all_goals simp only [interrupt] at h
  case timer =>
    obtain ⟨p, -, rfl⟩ := Option.map_eq_some_iff.mp h
    rw [inWait_cons rfl rfl, inWait_cons rfl rfl]
  all_goals cases h
  · rw [inWait_skips.1]
  · rw [inWait_cons rfl rfl, inWait_cons rfl rfl]

theorem interrupt_exitZombie {status : Int} (h : interrupt me st ch = some st') (hz : .exitZombie status ∈ st') :
    .exitZombie status ∈ st := by
  cases ch
  all_goals simp only [interrupt] at h
  case timer =>
    obtain ⟨p, -, rfl⟩ := Option.map_eq_some_iff.mp h
    simpa using hz
  all_goals cases h
  all_goals simpa [mem_skips (f := .exitZombie status) rfl] using hz

end Exec

section Step
variable {s t : State n} {c : Fin n} {ch : Choice} {e : Effect} {p P : Slot}

theorem StackStep.inWait (h : StackStep s t c ch e p) (hs : StackOk (some p) (s.stack p)) (hr : InWait (t.stack p)) :
    InWait (s.stack p) ∨ (e.write = some (p, .sleepPrepare (.proc p)) ∧
      s.me c = some p ∧ ∃ chan addr, s.stack p = [.sleepPrepare chan, .waitRelease addr] ∧
        t.stack p = [.waitRelease addr]) := by
  cases h with
  | same h => exact Or.inl (h ▸ hr)
  | born _ h =>
    rw [h] at hr
    simp [InWait, Frame.waiting] at hr
  | exec hme hx h =>
    rcases exec_inWait hs hx (h ▸ hr) with hr | ⟨hw, chan, addr, hst, hst'⟩
    · exact Or.inl hr
    · exact Or.inr ⟨hw, hme, chan, addr, hst, h.trans hst'⟩
  | interrupt _ hx _ h => exact Or.inl ((interrupt_inWait hx).mp (h ▸ hr))
  | panic _ hst _ h =>
    rw [hst]
    rw [h] at hr
    exact Or.inl ((inWait_cons rfl rfl).mp hr)
  | swtch _ hst _ h =>
    rw [hst]
    rw [h] at hr
    exact Or.inl ((inWait_cons rfl rfl).mpr hr)

theorem not_sleepPrepare_of_inWait (hi : Inv s) (h : Xv6.step s (c, ch) = some t) (hr : InWait (s.stack p))
    (chan : Chan) : writeOf s (c, ch) ≠ some (p, .sleepPrepare chan) := by
  intro hw
  rcases hi.writer h hw with hop | ⟨f, r, hcode, hf⟩
  · simp at hop
  · cases hf with
    | sleepPrepare hme =>
      rw [stack_of_me hme, hcode] at hr
      simp [InWait, Frame.preparing] at hr

/-- A process registered in `kwait()` has been woken, or sleeps on its own slot. -/
theorem inWait_chan (hs : Reachable s) (p : Slot) (hr : InWait (s.stack p)) :
    (s.proc p).chan = .null ∨ (s.proc p).chan = .proc p := by
  refine Automaton.Reachable.invariant (P := fun s : State n => ∀ p, InWait (s.stack p) →
    (s.proc p).chan = .null ∨ (s.proc p).chan = .proc p) (fun _ _ => Or.inl rfl) ?_ hs p hr
  rintro s ⟨c, ch⟩ t hs hreg h p hr
  have hi := inv_of_reachable hs
  obtain ⟨e, hcs, hwe, -⟩ := hi.code_step h
  rcases (hcs.stackStep p).inWait ((stackOk_of_reachable hs).saved p) hr with hr | ⟨hw, -⟩
  · rcases hi.slot_step h p with ⟨-, heq⟩ | ⟨op, hw, htw, heq⟩
    · rw [heq]
      exact hreg p hr
    · rw [heq]
      rcases htw.chan with hch | hch | ⟨chan, rfl⟩
      · rw [hch]
        exact hreg p hr
      · exact Or.inl hch
      · -- `sleep_prepare()` is called before the registration, not after it
        exact absurd hw (not_sleepPrepare_of_inWait hi h hr chan)
  · rw [(hi.tableWrite_of h (hwe.trans hw)).2]
    exact Or.inr rfl

/-! ## The pending wakeup -/

theorem tail_of_wait {me : Option Slot} {g : Frame} {r : List Frame} (hl : .wait ∈ g.locks me)
    (hok : g.Below me r) : r = [] := by
  cases g
  all_goals first | exact hok rfl | simp [Frame.locks, self] at hl

/-- A pending wakeup stays pending until it comes to the process. -/
theorem WakePending.step (hs : Reachable s) (h : Xv6.step s (c, ch) = some t) (hp : WakePending s P) :
    WakePending t P ∨ ((s.proc P).chan = .proc P → (t.proc P).chan = .null) := by
  have hi := inv_of_reachable hs
  obtain ⟨e, hcs, hwe, -, hother⟩ := hi.code_step h
  obtain ⟨d, i, g, hg, hl, hin, hv, hle⟩ := hp
  have hok := (stackOk_of_reachable hs).code d
  have hheld : .wait ∈ s.held d := mem_held_of_code (mem_locksOf hok hg hl hin)
  by_cases hd : d = c
  · subst hd
    cases hcs with
    | exec hx _ hcode hme =>
      cases hst : s.code d with
      | nil =>
        rw [hst] at hg
        cases hg
      | cons f r =>
        rw [hst] at hx hg hv hok
        -- the frame that holds `wait_lock` is the last of the stack
        have hgr : g ∈ r := by
          rcases List.mem_cons.mp hg with rfl | hg
          · rw [tail_of_wait hl hok.1] at hv
            obtain rfl := List.mem_singleton.mp hv
            simp [Frame.locks] at hl
          · exact hg
        rcases List.mem_cons.mp hv with rfl | hvr
        · obtain ⟨rfl, hst'⟩ := exec_visit hx
          by_cases hiP : i = P
          · right
            intro hchan
            subst hiP
            have hw : writeOf s (d, ch) = some (i, .wakeup) := by
              rw [hwe]
              simp [visit, Job.body, wakeup, hchan]
            rw [(hi.tableWrite_of h hw).2]
            rfl
          · left
            have hiP' : i.val < P.val := Fin.lt_def.mp (lt_of_le_of_ne hle hiP)
            have hlt : i.val + 1 < nproc := by omega
            have hnext : (visit (s.proc i) (.wakeup (.proc P)) i r).2 =
                .want (.proc ⟨i.val + 1, hlt⟩) :: .visit (.wakeup (.proc P)) ⟨i.val + 1, hlt⟩ :: r := by
              simp [visit, Job.body, wakeup, scanNext, hlt]
            refine ⟨d, ⟨i.val + 1, hlt⟩, g, ?_, hme ▸ hl, hme ▸ hin, ?_, ?_⟩
            · rw [hcode, hst', hnext]
              simp [hgr]
            · rw [hcode, hst', hnext]
              simp
            · exact hiP'
        · exact Or.inl ⟨d, i, g, hcode ▸ exec_tail hx hgr, hme ▸ hl, hme ▸ hin, hcode ▸ exec_tail hx hvr, hle⟩
    | interrupt _ hno =>
      rw [hno] at hheld
      cases hheld
    | panic hme hcode hcode' hme' =>
      rw [hcode] at hg hv
      rw [hme] at hl hin
      exact Or.inl ⟨d, i, g, hcode' ▸ List.mem_cons_of_mem _ hg, hme' ▸ hl, hme' ▸ hin,
        hcode' ▸ List.mem_cons_of_mem _ hv, hle⟩
    | dispatch hno =>
      rw [hno] at hg
      cases hg
    | swtch _ _ hno =>
      rw [hno] at hheld
      simp at hheld
    | boot hno =>
      rw [hno] at hg
      cases hg
    | idle hno =>
      rw [hno] at hg
      cases hg
  · obtain ⟨hcode, hme⟩ := hother d hd
    exact Or.inl ⟨d, i, g, hcode ▸ hg, hme ▸ hl, hme ▸ hin, hcode ▸ hv, hle⟩

/-- A scan that starts under `wait_lock` is pending. -/
theorem WakePending.of_scan {r : List Frame} {g : Frame} (hcode : t.code c = scanFrom (.wakeup (.proc P)) r)
    (hg : g ∈ r) (hl : .wait ∈ g.locks (t.me c)) (hin : g.enters (t.me c) ≠ some .wait) : WakePending t P := by
  refine ⟨c, 0, g, ?_, hl, hin, ?_, Fin.zero_le P⟩
  · rw [hcode]
    simp [scanFrom, hg]
  · rw [hcode]
    simp [scanFrom]

theorem zombie_step (hi : Inv s) (h : Xv6.step s (c, ch) = some t) (hz : (t.proc p).state = .zombie) :
    (s.proc p).state = .zombie ∨ ∃ status, writeOf s (c, ch) = some (p, .kexit status) := by
  rcases hi.slot_step h p with ⟨-, heq⟩ | ⟨op, hw, htw, heq⟩
  · exact Or.inl (heq ▸ hz)
  · rw [heq] at hz
    cases hop : op.kin with
    | false => exact Or.inl ((htw.kin hop).2.mp hz)
    | true =>
      cases op
      case kexit status => exact Or.inr ⟨status, hw⟩
      case setParent => exact Or.inl hz
      case reparent => exact Or.inl hz
      all_goals first | cases hz | cases hop

/-- A process that becomes ZOMBIE was about to; one that is about to has a wakeup of its parent pending. -/
theorem gone_step (hs : Reachable s) (h : Xv6.step s (c, ch) = some t) (hg : Gone t p)
    (hpar : (s.proc p).parent = some P) : Gone s p ∨ WakePending t P := by
  have hi := inv_of_reachable hs
  obtain ⟨e, hcs, hwe, -⟩ := hi.code_step h
  rcases hg with hz | ⟨status, hz⟩
  · left
    rcases zombie_step hi h hz with hz | ⟨status, hw⟩
    · exact Or.inl hz
    · exact Or.inr ⟨status, by simp [(stack_of_kexit hs h hw).1]⟩
  · cases hcs.stackStep p with
    | same hst => exact Or.inl (Or.inr ⟨status, hst ▸ hz⟩)
    | born _ hst => simp [hst] at hz
    | exec hme hx hst _ hme' =>
      rw [hst] at hz
      rcases exec_exitZombie hx hz with hz | ⟨r, -, hst'⟩
      · exact Or.inl (Or.inr ⟨status, hz⟩)
      · right
        have hcode : t.code c =
            scanFrom (.wakeup (.proc P)) (.want (.proc p) :: .exitZombie status :: r) := by
          rw [← stack_of_me hme', hst, hst', hpar]
          rfl
        exact .of_scan (g := .exitZombie status) hcode (by simp) (by simp [Frame.locks])
          (by simp [Frame.enters, hme'])
    | interrupt _ hx _ hst =>
      rw [hst] at hz
      exact Or.inl (Or.inr ⟨status, interrupt_exitZombie hx hz⟩)
    | panic _ hst _ hst' => exact Or.inl (Or.inr ⟨status, by simpa [hst, hst'] using hz⟩)
    | swtch _ hst _ hst' => exact Or.inl (Or.inr ⟨status, by simpa [hst, hst'] using hz⟩)

/-- Whoever registers in `kwait()` has no child that is gone. -/
theorem not_gone_of_register (hs : Reachable s) (h : Xv6.step s (c, ch) = some t) {addr : Nat} {chan : Chan}
    (hw : writeOf s (c, ch) = some (P, .sleepPrepare (.proc P))) (hme : s.me c = some P)
    (hst : s.stack P = [.sleepPrepare chan, .waitRelease addr]) (hst' : t.stack P = [.waitRelease addr])
    (hpar : (s.proc p).parent = some P) : ¬ Gone t p := by
  have hi := inv_of_reachable hs
  have hknow := (family_of_reachable hs).known P (.waitRelease addr) (by simp [hst])
  rintro (hz | ⟨status, hz⟩)
  · rcases zombie_step hi h hz with hz | ⟨status, hw'⟩
    · exact hknow p hpar hz
    · cases (Inv.write_unique hw hw').2
  · have hp : p ≠ P := by
      rintro rfl
      simp [hst'] at hz
    obtain ⟨e, hcs, hwe, -⟩ := hi.code_step h
    have hsame : t.stack p = s.stack p ∨ t.stack p = [.unlockSelf] := by
      have hne : s.me c ≠ some p := fun hc => hp (Option.some.inj (hc.symm.trans hme))
      rcases hcs.stackStep p with h | ⟨-, h⟩ | hc | hc | hc | hc
      · exact Or.inl h
      · exact Or.inr h
      all_goals exact absurd hc hne
    rcases hsame with hsame | hsame
    · -- two processes inside sections of `wait_lock`
      rw [hsame] at hz
      obtain ⟨d, hd, hdw⟩ := on_cpu_of_waits hs hz (by simp [Frame.Waits, Frame.locks, Frame.enters, self])
      obtain ⟨d', hd', hdw'⟩ := on_cpu_of_waits (q := P) (f := .waitRelease addr) hs (by simp [hst])
        (by simp [Frame.Waits, Frame.locks, Frame.enters])
      rw [hi.owned.unique hdw hdw', hd'] at hd
      exact hp (Option.some.inj hd).symm
    · simp [hsame] at hz

/-- `reparent()` gives a child to `init` and then wakes it. -/
theorem wakePending_of_reparent (hs : Reachable s) (h : Xv6.step s (c, ch) = some t)
    (hw : writeOf s (c, ch) = some (p, .reparent s.initproc)) (hinit : s.initproc = some P) : WakePending t P := by
  obtain ⟨q, f, hme, hst, hf, -⟩ := wait_of_kin hs h hw rfl
  obtain ⟨e, hcs, hwe, -⟩ := (inv_of_reachable hs).code_step h
  obtain ⟨st', hx, hcode, -⟩ := hcs.exec_of_write ((stack_of_me hme).symm.trans hst) (hwe.symm.trans hw)
  rw [hwe] at hw
  cases hf with
  | @reparent _ _ status =>
    have hst' : st' = scanFrom (.wakeup (.proc P)) (reparentNext status p []) := by
      cases hx with
      | own hme h =>
        simp only [own] at h
        split_ifs at h
        · cases h
          rw [hinit]
          rfl
        · cases h
          cases hw
    have hg : ∃ g ∈ reparentNext status p [], .wait ∈ g.locks (t.me c) ∧ g.enters (t.me c) ≠ some .wait := by
      unfold reparentNext
      split
      · rename_i hlt
        have hne : (⟨p.val + 1, hlt⟩ : Slot) ≠ 0 := fun h0 => Nat.succ_ne_zero _ (congrArg Fin.val h0)
        exact ⟨_, List.mem_singleton_self _, by simp [Frame.locks], by simp [Frame.enters, hne]⟩
      · exact ⟨_, List.mem_singleton_self _, by simp [Frame.locks], by simp [Frame.enters]⟩
    obtain ⟨g, hg, hl, hin⟩ := hg
    exact .of_scan (hcode.trans hst') hg hl hin

/-- A slot whose parent is being set is not gone. -/
theorem not_gone_of_setParent (hs : Reachable s) (h : Xv6.step s (c, ch) = some t) {q : Slot}
    (hw : writeOf s (c, ch) = some (p, .setParent q)) : ¬ Gone t p := by
  have hused : (t.proc p).state = .used := by
    obtain ⟨htw, heq⟩ := (inv_of_reachable hs).tableWrite_of h hw
    rw [heq]
    cases htw with
    | setParent _ _ hst => exact hst
    | leave _ _ hop => cases hop
    | self _ _ hop => cases hop
    | scan hop => cases hop
  rintro (hz | ⟨status, hz⟩)
  · cases hused.symm.trans hz
  · have hsp := spent_of_reachable (Automaton.Reachable.next hs h) p (by simp [hused, Live]) _ hz
    cases hsp

end Step

/-- **A registered parent is about to be woken** if one of its children is gone. -/
theorem wakePending_of_reachable (hs : Reachable s) {P : Slot} (hpar : (s.proc p).parent = some P)
    (hr : InWait (s.stack P)) (hchan : (s.proc P).chan ≠ .null) (hg : Gone s p) : WakePending s P := by
  refine Automaton.Reachable.invariant (P := fun s : State n => ∀ p P, (s.proc p).parent = some P →
    InWait (s.stack P) → (s.proc P).chan ≠ .null → Gone s p → WakePending s P) (fun _ _ h => by cases h) ?_
    hs p P hpar hr hchan hg
  rintro s ⟨c, ch⟩ t hs hpend h p P hpar hr hchan hg
  have hi := inv_of_reachable hs
  obtain ⟨e, hcs, hwe, -⟩ := hi.code_step h
  have hset := fun q => not_gone_of_setParent (p := p) (q := q) hs h
  rcases hi.parent_step h p with hp | ⟨q, hw, -⟩ | ⟨hw, hp⟩ | ⟨hw, -⟩
  · rw [hp] at hpar
    rcases (hcs.stackStep P).inWait ((stackOk_of_reachable hs).saved P) hr with
      hr | ⟨hw, hme, chan, addr, hst, hst'⟩
    · have hchan' : (s.proc P).chan = .proc P := by
        refine (inWait_chan hs P hr).resolve_left fun hnull => hchan ?_
        rcases hi.slot_step h P with ⟨-, heq⟩ | ⟨op, hw, htw, heq⟩
        · rw [heq, hnull]
        · rw [heq]
          rcases htw.chan with hc | hc | ⟨chan, rfl⟩
          · rw [hc, hnull]
          · exact hc
          · exact absurd hw (not_sleepPrepare_of_inWait hi h hr chan)
      rcases gone_step hs h hg hpar with hg | hpend'
      · rcases (hpend p P hpar hr (by simp [hchan']) hg).step hs h with hpend' | hnull
        · exact hpend'
        · exact absurd (hnull hchan') hchan
      · exact hpend'
    · exact absurd hg (not_gone_of_register hs h (hwe.trans hw) hme hst hst' hpar)
  · exact absurd hg (hset q hw)
  · exact wakePending_of_reparent hs h hw (hp.symm.trans hpar)
  · rw [(hi.tableWrite_of h hw).2] at hpar
    cases hpar

/-! ## One exit, one reap -/

section Reap
variable {s t : State n} {c : Fin n} {ch : Choice}

/-- What a successful `kwait()` does: it is the parent's, and returns the pid of the ZOMBIE. -/
theorem reap_step (hs : Reachable s) (h : Xv6.step s (c, ch) = some t) {p : Slot}
    (hw : writeOf s (c, ch) = some (p, .reap)) :
    (s.proc p).state = .zombie ∧ (t.proc p).state = .unused ∧ ∃ q addr, s.me c = some q ∧
      (s.proc p).parent = some q ∧ s.code c = [.waitChild addr p] ∧ t.code c = [.sysret (s.proc p).pid] := by
  have hi := inv_of_reachable hs
  obtain ⟨htw, heq⟩ := hi.tableWrite_of h hw
  obtain ⟨q, f, hme, hst, hf, -⟩ := wait_of_kin hs h hw rfl
  obtain ⟨e, hcs, hwe, -⟩ := hi.code_step h
  have hcode : s.code c = [f] := (stack_of_me hme).symm.trans hst
  obtain ⟨st', hx, hcode', -⟩ := hcs.exec_of_write hcode (hwe.symm.trans hw)
  cases hf with
  | @reap _ _ addr =>
    have hknow := (family_of_reachable hs).known q (.waitChild addr p) (by simp [hst])
    rw [hwe] at hw
    cases hx with
    | own hme' h =>
      simp only [own] at h
      split_ifs at h with hz
      · cases h
        cases hw
      · cases h
        exact ⟨hz, by rw [heq]; rfl, q, addr, hme, hknow.1, hcode, hcode'⟩
      · cases h
        cases hw

/-- A ZOMBIE keeps its pid and status until it is reaped. -/
theorem zombie_kept (hi : Inv s) (h : Xv6.step s (c, ch) = some t) {p : Slot} (hz : (s.proc p).state = .zombie) :
    writeOf s (c, ch) = some (p, .reap) ∨
      ((t.proc p).state = .zombie ∧ (t.proc p).pid = (s.proc p).pid ∧ (t.proc p).xstate = (s.proc p).xstate) := by
  rcases hi.slot_step h p with ⟨-, heq⟩ | ⟨op, hw, htw, heq⟩
  · exact Or.inr (by rw [heq]; exact ⟨hz, rfl, rfl⟩)
  · rw [heq]
    cases htw with
    | visit =>
      right
      rw [Op.apply, schedulerVisit_eq]
      exact ⟨hz, rfl, rfl⟩
    | dispatch _ _ hst => cases hz.symm.trans hst
    | userinit _ hst => cases hz.symm.trans hst
    | leave _ hst => cases hz.symm.trans hst
    | self _ hst => cases hz.symm.trans hst
    | scan hop =>
      right
      cases hop <;> exact ⟨by simp [Op.apply, hz], rfl, rfl⟩
    | allocproc hst => cases hz.symm.trans hst
    | inherit _ hst => cases hz.symm.trans hst
    | forkfail hst => cases hz.symm.trans hst
    | setParent _ _ hst => cases hz.symm.trans hst
    | publish hst => cases hz.symm.trans hst
    | reparent => exact Or.inr ⟨hz, rfl, rfl⟩
    | reap => exact Or.inl hw

end Reap

/-- How often process slot `p` is reaped in a run. -/
def reaps (p : Slot) : State n → List (Label n) → Nat :=
  Automaton.tally step fun s l _ => if writeOf s l = some (p, .reap) then 1 else 0

/-- The step is not an exit of slot `p`. -/
def NoExit (p : Slot) (s : State n) (l : Label n) (_ : State n) : Prop :=
  ∀ status, writeOf s l ≠ some (p, .kexit status)

/-- The process of slot `p` exited with this pid and status, or has been reaped since. -/
def Exited (p : Slot) (pid status : Int) (s : State n) : Prop :=
  (s.proc p).state = .zombie → (s.proc p).pid = pid ∧ (s.proc p).xstate = status

theorem exited_step {t : State n} {l : Label n} {pid status : Int} (hs : Reachable s) (h : step s l = some t)
    (hno : NoExit p s l t) (hx : Exited p pid status s) : Exited p pid status t := by
  obtain ⟨c, ch⟩ := l
  have hi := inv_of_reachable hs
  intro hz
  rcases zombie_step hi h hz with hz' | ⟨st, hw⟩
  · rcases zombie_kept hi h hz' with hw | ⟨-, hpid, hxs⟩
    · cases hz.symm.trans (reap_step hs h hw).2.1
    · rw [hpid, hxs]
      exact hx hz'
  · exact absurd hw (hno st)

theorem reaps_of_not_zombie {ls : List (Label n)} (hs : Reachable s) (hno : Automaton.Each step (NoExit p) s ls)
    (hz : (s.proc p).state ≠ .zombie) : reaps p s ls = 0 := by
  induction ls generalizing s with
  | nil => rfl
  | cons l ls ih =>
    obtain ⟨c, ch⟩ := l
    cases h : step s (c, ch) with
    | none => simp [reaps, Automaton.tally, h]
    | some t =>
      have hi := inv_of_reachable hs
      obtain ⟨hnow, hlater⟩ := hno t h
      have hz' : (t.proc p).state ≠ .zombie := fun hz' =>
        (zombie_step hi h hz').elim hz fun hw => hnow hw.choose hw.choose_spec
      have hw : writeOf s (c, ch) ≠ some (p, .reap) := fun hw => hz (reap_step hs h hw).1
      have hrest := ih (Automaton.Reachable.next hs h) hlater hz'
      unfold reaps at hrest ⊢
      rw [Automaton.tally_cons h, hrest, if_neg hw]

/-- Until the next exit a slot is reaped at most once. -/
theorem reaps_le_one {ls : List (Label n)} (hs : Reachable s) (hno : Automaton.Each step (NoExit p) s ls) :
    reaps p s ls ≤ 1 := by
  induction ls generalizing s with
  | nil => exact Nat.zero_le 1
  | cons l ls ih =>
    obtain ⟨c, ch⟩ := l
    cases h : step s (c, ch) with
    | none => simp [reaps, Automaton.tally, h]
    | some t =>
      obtain ⟨-, hlater⟩ := hno t h
      have ht := Automaton.Reachable.next hs h
      by_cases hw : writeOf s (c, ch) = some (p, .reap)
      · have hz : (t.proc p).state ≠ .zombie := by
          rw [(reap_step hs h hw).2.1]
          simp
        have hrest := reaps_of_not_zombie ht hlater hz
        unfold reaps at hrest ⊢
        rw [Automaton.tally_cons h, hrest, if_pos hw]
      · have hrest := ih ht hlater
        unfold reaps at hrest ⊢
        rw [Automaton.tally_cons h, if_neg hw, Nat.zero_add]
        exact hrest

theorem inWait_of_waitWoken {me : Option Slot} {st : List Frame} {addr : Nat} (hok : StackOk me st)
    (h : .waitWoken addr ∈ st) : InWait st := by
  refine ⟨List.any_eq_true.mpr ⟨_, h, rfl⟩, ?_⟩
  induction st with
  | nil => cases h
  | cons f r ih =>
    obtain ⟨hf, hok⟩ := hok
    rcases List.mem_cons.mp h with rfl | hr
    · obtain rfl : r = [] := hf rfl
      rfl
    · rw [List.any_cons, ih hok hr, Bool.or_false]
      cases f
      case sleepPrepare chan =>
        exfalso
        rcases hf with rfl | ⟨w, due, -, rfl⟩ | ⟨addr, q, -, -, rfl⟩ <;> simp at hr
      all_goals rfl

/-- `kwait()` with a bad status address leaves everything as it was. -/
theorem copyout_fails {t : State n} {c : Fin n} {addr : Nat} {r : List Frame} (hs : Reachable s)
    (h : step s (c, .copy false) = some t) (hcode : s.code c = .waitChild addr p :: r) (hz : (s.proc p).state = .zombie)
    (haddr : addr ≠ 0) : t.proc = s.proc ∧ t.code c = .sysret (-1) :: r := by
  have hi := inv_of_reachable hs
  obtain ⟨e, hcs, hwe, -⟩ := hi.code_step h
  cases hcs with
  | exec hx _ hcode' =>
    rw [hcode] at hx
    cases hx with
    | own hme hown =>
      simp only [own, hz, haddr, if_true, and_self, ne_eq, not_false_eq_true] at hown
      cases hown
      refine ⟨?_, hcode'⟩
      rcases hi.table_step h with ⟨-, htab⟩ | ⟨i, op, hw, -, -⟩
      · exact htab
      · rw [hwe] at hw
        cases hw
  | interrupt _ hheld =>
    have hl : .wait ∈ s.held c := mem_held_of_code (by simp [hcode, locksOf, Frame.locks])
    rw [hheld] at hl
    cases hl
  | panic _ hno => cases hcode.symm.trans hno
  | dispatch hno => cases hcode.symm.trans hno
  | swtch _ hno => cases hcode.symm.trans hno
  | boot hno => cases hcode.symm.trans hno
  | idle hno => cases hcode.symm.trans hno

/-- **Exactly-once reaping.** With `wait_lock` free every published process but `init` has a parent that is in use
and not ZOMBIE. A process that exits is returned by at most one `kwait()`, its parent's, with its pid and
status. A `kwait()` that fails in `copyout()` changes nothing. With `wait_lock` free nobody sleeps in `kwait()`
with a ZOMBIE child. -/
theorem exactly_once_reaping (hs : Reachable s) :
    (s.lock .wait = none → ∀ p, (s.proc p).state ≠ .unused → (∀ q, p ∉ children (s.stack q)) →
      s.initproc ≠ some p → ∃ q, (s.proc p).parent = some q ∧ (s.proc q).state ≠ .unused ∧
        (s.proc q).state ≠ .zombie) ∧
    (∀ l t p status, step s l = some t → writeOf s l = some (p, .kexit status) →
      ∀ ls, Automaton.Each step (NoExit p) t ls → reaps p t ls ≤ 1 ∧
        Automaton.Each step (fun u l v => writeOf u l = some (p, .reap) →
          (u.proc p).pid = (s.proc p).pid ∧ (u.proc p).xstate = status ∧ ∃ q addr, u.me l.1 = some q ∧
            (u.proc p).parent = some q ∧ u.code l.1 = [.waitChild addr p] ∧
            v.code l.1 = [.sysret (s.proc p).pid]) t ls) ∧
    (∀ c t p addr r, step s (c, .copy false) = some t → s.code c = .waitChild addr p :: r →
      (s.proc p).state = .zombie → addr ≠ 0 → t.proc = s.proc ∧ t.code c = .sysret (-1) :: r) ∧
    (s.lock .wait = none → ∀ p q addr, (s.proc q).state = .sleeping → .waitWoken addr ∈ s.stack q →
      (s.proc p).parent = some q → (s.proc p).state ≠ .zombie) := by
  have hi := inv_of_reachable hs
  have hf := family_of_reachable hs
  refine ⟨fun _ p hp hno hne => ?_, ?_, fun c t p addr r h hcode hz ha => copyout_fails hs h hcode hz ha, ?_⟩
  · obtain ⟨q, hq⟩ := Option.ne_none_iff_exists'.mp (hf.published p hp hno hne)
    have hl := hf.live p q hq
    refine ⟨q, hq, fun hu => ?_, fun hu => ?_⟩
    · simp [hu, Live] at hl
    · simp [hu, Live] at hl
  · rintro ⟨c, ch⟩ t p status h hw ls hno
    have ht := Automaton.Reachable.next hs h
    have hexit : Exited p (s.proc p).pid status t := by
      rw [Exited, (hi.tableWrite_of h hw).2]
      exact fun _ => ⟨rfl, rfl⟩
    have halways : Automaton.Always step (fun u => Reachable u ∧ Exited p (s.proc p).pid status u) t ls := by
      refine Automaton.Each.always (hno.imp ?_) ⟨ht, hexit⟩
      rintro u l v hstep hnow ⟨hu, hx⟩
      exact ⟨Automaton.Reachable.next hu hstep, exited_step hu hstep hnow hx⟩
    refine ⟨reaps_le_one ht hno, (hno.and_always halways).imp ?_⟩
    rintro u ⟨d, ch'⟩ v hstep ⟨⟨hu, hx⟩, -⟩ hreap
    obtain ⟨hz, -, q, addr, hme, hpar, hcode, hcode'⟩ := reap_step hu hstep hreap
    obtain ⟨hpid, hxs⟩ := hx hz
    exact ⟨hpid, hxs, q, addr, hme, hpar, hcode, hpid ▸ hcode'⟩
  · intro hfree p q addr hsleep hwoken hpar hz
    have hr := inWait_of_waitWoken ((stackOk_of_reachable hs).saved q) hwoken
    obtain ⟨d, i, g, hg, hl, hin, -⟩ :=
      wakePending_of_reachable hs hpar hr (sleeping_chan hs q hsleep) (Or.inl hz)
    have hheld := mem_held_of_code (mem_locksOf ((stackOk_of_reachable hs).code d) hg hl hin)
    exact hi.owned.not_mem_of_free hfree d hheld

/-! The first process forks and waits for its child. -/

def initWaits : State 1 :=
  Automaton.runD step started ([(0, .run)] ++ forkInto 1 ++ [(0, .wait 0)] ++ List.replicate 74 (0, .run))

theorem reachable_initWaits : Reachable initWaits :=
  Automaton.Reachable.trans reachable_started (Automaton.run_eq_runD (by set_option maxRecDepth 20000 in decide))

theorem exactly_once_reaping_initWaits : (initWaits.proc 0).state = .sleeping ∧ .waitWoken 0 ∈ initWaits.stack 0 ∧
    (initWaits.proc 1).parent = some 0 ∧ (initWaits.proc 1).state ≠ .zombie ∧
    ∃ q, (initWaits.proc 1).parent = some q ∧ (initWaits.proc q).state ≠ .unused ∧
      (initWaits.proc q).state ≠ .zombie := by
  have hfacts : initWaits.lock .wait = none ∧ (initWaits.proc 0).state = .sleeping ∧
      .waitWoken 0 ∈ initWaits.stack 0 ∧ (initWaits.proc 1).parent = some 0 ∧
      (initWaits.proc 1).state ≠ .unused ∧ (∀ q, 1 ∉ children (initWaits.stack q)) ∧
      initWaits.initproc ≠ some 1 := by set_option maxRecDepth 20000 in decide
  obtain ⟨hfree, hsleep, hwoken, hpar, hused, hpub, hinit⟩ := hfacts
  obtain ⟨ha, -, -, hd⟩ := exactly_once_reaping reachable_initWaits
  exact ⟨hsleep, hwoken, hpar, hd hfree 1 0 0 hsleep hwoken hpar, ha hfree 1 hused hpub hinit⟩

end Xv6
