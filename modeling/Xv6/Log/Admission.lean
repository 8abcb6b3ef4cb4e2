import Xv6.Log.Group

/-!
# Admission to the log

`begin_op()` reserves `MAXOPBLOCKS` blocks for an operation it admits.

* `OpFits` : the step keeps its operation to `MAXOPBLOCKS` distinct blocks;
* `SparesFull` : the step does not rewrite a logged block while the log is full;
* `admission_suffices` : in a run of such steps the log never overflows;
* `full_log_rewrite` : `log_write()` tests for room before it looks for absorption, so a rewrite in a full log
  panics although it needs no room.
-/

namespace Xv6
open Automaton Function

variable {T : Type*} [DecidableEq T] {α : Type*} {start : Nat}

def OpFits (s : LogState T α) (l : T × LogCall α) (_ : LogState T α) : Prop :=
  match s.pc l.1, l.2 with
  | .op logged, .logWrite b _ => b ∈ logged ∨ logged.length < maxopblocks
  | _, _ => True

def SparesFull (s : LogState T α) (l : T × LogCall α) (_ : LogState T α) : Prop :=
  match s.pc l.1, l.2 with
  | .op logged, .logWrite b _ => b ∈ logged → s.lh.n < logblocks
  | _, _ => True

instance (s : LogState T α) (l : T × LogCall α) (t : LogState T α) : Decidable (OpFits s l t) := by
  unfold OpFits
  split <;> infer_instance

instance (s : LogState T α) (l : T × LogCall α) (t : LogState T α) : Decidable (SparesFull s l t) := by
  unfold SparesFull
  split <;> infer_instance

/-- The blocks that an operation may still log. -/
def LogPc.reserve : LogPc → Nat
  | .op l => maxopblocks - l.length
  | _ => 0

/-- The blocks that the operation under way has logged. -/
def LogPc.opBlocks : LogPc → List Nat
  | .op l => l
  | _ => []

structure Admitted [Fintype T] (s : LogState T α) : Prop where
  room : s.lh.n + weigh LogPc.reserve s.pc ≤ logblocks
  kept : ∀ q, ∀ b ∈ (s.pc q).opBlocks, b ∈ s.lh.blocks
  panic : s.panic ≠ some .tooBig

@[simp] theorem LogPc.reserve_wake (c : LogPc) : c.wake.reserve = c.reserve := by cases c <;> rfl

@[simp] theorem LogPc.opBlocks_wake (c : LogPc) : c.wake.opBlocks = c.opBlocks := by cases c <;> rfl

theorem LogPc.Passive.reserve {c : LogPc} (h : c.Passive) : c.reserve = 0 := by
  cases c <;> first | rfl | exact h.elim

theorem LogPc.Passive.opBlocks {c : LogPc} (h : c.Passive) : c.opBlocks = [] := by
  cases c <;> first | rfl | exact h.elim

/-! ## One step -/

section Step
variable [Fintype T] {s t : LogState T α} {p : T} {a : LogCall α}

omit [DecidableEq T] in
/-- Every operation has reserved at most `MAXOPBLOCKS` blocks. -/
theorem LogInv.reserve_le (h : LogInv s) : (weigh LogPc.reserve s.pc : Int) ≤ s.outstanding * maxopblocks := by
  have hle : weigh LogPc.reserve s.pc ≤ weigh (fun c => LogPc.inOp c * maxopblocks) s.pc := by
    refine weigh_mono fun q => ?_
    cases s.pc q <;> simp [LogPc.reserve, LogPc.inOp]
  rw [weigh_mul] at hle
  rw [h.ops]
  exact_mod_cast hle

/-- The thread `p` moves to `c`, and the header grows by no more than `p`'s reservation shrinks. -/
theorem Admitted.move (h : Admitted s) {c : LogPc} (hpc : ∀ q, (t.pc q).reserve = (update s.pc p c q).reserve ∧
      (t.pc q).opBlocks = (update s.pc p c q).opBlocks)
    (hroom : t.lh.n + c.reserve ≤ s.lh.n + (s.pc p).reserve) (hsub : ∀ b ∈ s.lh.blocks, b ∈ t.lh.blocks)
    (hc : ∀ b ∈ c.opBlocks, b ∈ t.lh.blocks) (hpanic : t.panic = s.panic) : Admitted t := by
  have hw := weigh_update LogPc.reserve s.pc p c
  have hroom' := h.room
  refine ⟨?_, fun q b hb => ?_, hpanic ▸ h.panic⟩
  · rw [weigh_congr fun q => (hpc q).1]
    omega
  · rw [(hpc q).2] at hb
    by_cases hqp : q = p
    · rw [hqp, update_self] at hb
      exact hc b hb
    · rw [update_of_ne hqp] at hb
      exact hsub b (h.kept q b hb)

omit [Fintype T] in
theorem lh_n_commit_le (s : LogState T α) (p : T) (l : List Nat) (k : CommitPc) :
    (s.commit start p l k).lh.n ≤ s.lh.n := by
  cases k with
  | test | writeLog tail | installTrans tail =>
    simp only [LogState.commit]
    split_ifs <;> exact Nat.le_refl _
  | clear => exact Nat.zero_le _
  | writeHead | erase | finish => exact Nat.le_refl _

omit [Fintype T] in
theorem panic_commit (p : T) (l : List Nat) (k : CommitPc) (h : s.panic ≠ some .tooBig) :
    (s.commit start p l k).panic ≠ some .tooBig := by
  cases k with
  | test | installTrans tail =>
    simp only [LogState.commit]
    split <;> exact h
  | writeLog tail =>
    simp only [LogState.commit]
    split_ifs
    · simp
    · exact h
    · exact h
  | clear | writeHead | erase | finish => exact h

theorem Admitted.step (h : Admitted s) (hi : LogInv s) (hs : LogStep start s p a t) (hfit : OpFits s (p, a) t)
    (hspare : SparesFull s (p, a) t) : Admitted t := by
  cases hs with
  | move a c hp hc hw =>
    refine h.move (p := p) (c := c) (fun q => ⟨rfl, rfl⟩) ?_ (fun b hb => hb) ?_ rfl
    · rw [hp.reserve, hc.reserve]
      exact Nat.le_refl _
    · rw [hc.opBlocks]
      exact fun b hb => absurd hb List.not_mem_nil
  | stay hp => exact h
  | enter hp hc hf =>
    have hw := weigh_update LogPc.reserve s.pc p (.op [])
    have hle := hi.reserve_le
    simp only [hp, LogPc.reserve, List.length_nil, Nat.sub_zero, Nat.add_zero] at hw
    refine ⟨?_, fun q b hb => ?_, h.panic⟩
    · simp only [LogState.setPc, LogState.Full, maxopblocks, logblocks] at hw hle hf ⊢
      omega
    · by_cases hqp : q = p
      · rw [hqp, pc_setPc_self] at hb
        exact absurd hb List.not_mem_nil
      · rw [pc_setPc_of_ne hqp] at hb
        exact h.kept q b hb
  | tooBig l b v hp hn =>
    -- a block that is new to the operation has its room reserved
    simp only [OpFits, SparesFull, hp] at hfit hspare
    rcases hfit with hb | hlen
    · exact absurd (hspare hb) (Nat.not_lt.mpr hn)
    · have hle := le_weigh LogPc.reserve s.pc p
      have hroom := h.room
      rw [hp, LogPc.reserve] at hle
      omega
  | outside l b v hp ho => exact ⟨h.room, h.kept, by simp⟩
  | clash l hp hc => exact absurd hp (hi.no_op hc p l)
  | absorb l b v hp hn hb =>
    have hkept := h.kept p
    rw [hp] at hkept
    refine h.move (p := p) (fun q => ⟨rfl, rfl⟩) ?_ (fun b hb => hb) ?_ rfl
    · rw [hp, LogPc.reserve, LogPc.reserve]
      refine Nat.add_le_add_left (Nat.sub_le_sub_left ?_ _) _
      split
      · exact Nat.le_refl _
      · exact Nat.le_succ _
    · intro c hc
      simp only [LogPc.opBlocks] at hc
      split at hc
      · exact hkept c hc
      · rcases List.mem_cons.mp hc with rfl | hc
        · exact hb
        · exact hkept c hc
  | append l b v lh hp hn hb hlh =>
    have hkept := h.kept p
    rw [hp] at hkept
    have hbl : b ∉ l := fun hbl => hb (hkept b hbl)
    have hlen : lh.n = s.lh.n + 1 := by
      have hlen := congrArg List.length hlh
      simpa using hlen
    have hsub : ∀ c ∈ s.lh.blocks, c ∈ lh.blocks := fun c hc => by
      rw [hlh]
      exact List.mem_append_left _ hc
    simp only [OpFits, hp, hbl, false_or] at hfit
    simp only [hbl, if_false]
    refine h.move (p := p) (fun q => ⟨rfl, rfl⟩) ?_ hsub ?_ rfl
    · rw [hp]
      simp only [LogState.setPc, LogPc.reserve, List.length_cons]
      omega
    · intro c hc
      rcases List.mem_cons.mp hc with rfl | hc
      · change c ∈ lh.blocks
        rw [hlh]
        simp
      · exact hsub c (hkept c hc)
  | last l hp hc ho =>
    refine h.move (p := p) (fun q => ⟨rfl, rfl⟩) ?_ (fun b hb => hb) ?_ rfl
    · exact Nat.add_le_add_left (Nat.zero_le _) _
    · exact fun b hb => absurd hb List.not_mem_nil
  | leave l hp hc ho =>
    refine h.move (p := p) (c := .user) (fun q => ⟨LogPc.reserve_wake _, LogPc.opBlocks_wake _⟩) ?_
      (fun b hb => hb) ?_ rfl
    · exact Nat.add_le_add_left (Nat.zero_le _) _
    · exact fun b hb => absurd hb List.not_mem_nil
  | commit k l hp =>
    -- no operation is under way, and none has a reservation
    have hidle : ∀ q, (s.pc q).reserve = 0 ∧ (s.pc q).opBlocks = [] := fun q => by
      cases hq : s.pc q with
      | op l' => exact absurd hq (hi.no_op (hi.committing_of hp) q l')
      | user | beginOp | commit | sync => exact ⟨rfl, rfl⟩
    have hidle' : ∀ q, ((s.commit start p l k).pc q).reserve = 0 ∧ ((s.commit start p l k).pc q).opBlocks = [] := by
      intro q
      by_cases hqp : q = p
      · rcases pc_commit start hp with ⟨k', hpc⟩ | hpc
        · rw [hpc, hqp, update_self]
          exact ⟨rfl, rfl⟩
        · rw [hpc, hqp, update_self]
          exact ⟨rfl, rfl⟩
      · rcases pc_commit start hp with ⟨k', hpc⟩ | hpc
        · rw [hpc, update_of_ne hqp]
          exact hidle q
        · rw [hpc, update_of_ne hqp, LogPc.reserve_wake, LogPc.opBlocks_wake]
          exact hidle q
    refine ⟨?_, fun q b hb => ?_, ?_⟩
    · rw [weigh_eq_zero fun q => (hidle' q).1]
      exact Nat.le_trans (lh_n_commit_le s p l k) (Nat.le_trans (Nat.le_add_right _ _) h.room)
    · rw [(hidle' q).2] at hb
      exact absurd hb List.not_mem_nil
    · exact panic_commit p l k h.panic

end Step

/-! ## Whole runs -/

section Run
variable [Fintype T]

omit [DecidableEq T] in
theorem admitted_init (d : Disk α) : Admitted (.init d : LogState T α) where
  room := by
    have hzero : weigh LogPc.reserve (LogState.init d : LogState T α).pc = 0 := weigh_eq_zero fun _ => rfl
    rw [hzero]
    exact Nat.zero_le _
  kept _ _ hb := absurd hb List.not_mem_nil
  panic := by simp [LogState.init]

/-- **Admission is sufficient** for operations that log at most `MAXOPBLOCKS` distinct blocks, as long as none
rewrites a block it has logged while the log is full. -/
theorem admission_suffices (d : Disk α) (ls : List (T × LogCall α))
    (h : Each (LogState.step start) (fun s l t => OpFits s l t ∧ SparesFull s l t) (.init d) ls) :
    Always (LogState.step start) (fun s => s.panic ≠ some .tooBig ∧ s.lh.n ≤ logblocks) (.init d) ls := by
  have hstep : Each (LogState.step start) (fun s _ t => LogInv s ∧ Admitted s → LogInv t ∧ Admitted t) (.init d) ls :=
    h.imp fun s l t hs hq hi =>
      ⟨hi.1.step (logStep_of_step hs), hi.2.step hi.1 (logStep_of_step hs) hq.1 hq.2⟩
  refine (hstep.always ⟨logInv_init d, admitted_init d⟩).imp fun s hs => ⟨hs.2.panic, ?_⟩
  exact Nat.le_trans (Nat.le_add_right _ _) hs.2.room

end Run

theorem admission_suffices_full :
    Each (LogState.step 2) (fun s l t => OpFits s l t ∧ SparesFull s l t) emptyLog fullLogRun ∧
    ∃ s, run (LogState.step 2) emptyLog fullLogRun = some s ∧ s.outstanding = 3 ∧ s.lh.n = logblocks ∧
      s.panic ≠ some .tooBig := by
  have heach : Each (LogState.step 2) (fun s l t => OpFits s l t ∧ SparesFull s l t) emptyLog fullLogRun := by
    decide
  have hrun : run (LogState.step 2) emptyLog fullLogRun = some (runD (LogState.step 2) emptyLog fullLogRun) :=
    run_eq_runD (by decide)
  exact ⟨heach, _, hrun, by decide, by decide, ((admission_suffices _ _ heach).last hrun).1⟩

/-- The log holds the thirty blocks of three operations, and the first writes one of its blocks again. -/
theorem full_log_rewrite : Each (LogState.step 2) OpFits emptyLog (fullLogRun ++ [(0, .logWrite 100 ())]) ∧
    ∃ s, run (LogState.step 2) emptyLog (fullLogRun ++ [(0, .logWrite 100 ())]) = some s ∧
      s.panic = some .tooBig :=
  ⟨by decide, _, run_eq_runD (by decide), by decide⟩

end Xv6
