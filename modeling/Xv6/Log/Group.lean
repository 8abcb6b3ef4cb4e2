import Xv6.Log.Protocol

/-!
# The group-commit protocol

* `Held pins logged lh k` : the blocks of `lh` are those logged since the last commit, and are pinned except the
  first `k`;
* `CommitOk … k` : how far `commit()` has come at `k`: the writes it has issued and the pins it has dropped;
* `LogInv` : the invariant of the protocol;
* `Recorded` : the disk is what the recorded writes make of it, and the headers in them are those of the groups;
* `group_commit` : what holds in every state that the calls can reach.
-/

namespace Xv6
open Automaton Function

variable {T : Type*} {α : Type*} {start : Nat}

def LogPc.inOp : LogPc → Nat
  | .op _ => 1
  | _ => 0

def LogPc.inCommit : LogPc → Nat
  | .commit _ _ => 1
  | _ => 0

structure Held (pins : Nat → Int) (logged : List Nat) (lh : LogHeader) (k : Nat) : Prop where
  nodup : lh.blocks.Nodup
  logged : ∀ b, b ∈ lh.blocks ↔ b ∈ logged
  pins : ∀ b, pins b = if b ∈ lh.blocks.drop k then 1 else 0

/-- The writes of `commit()` up to the header, and those of `install_trans()` for the first `k` blocks. -/
def committedWrites (lh : LogHeader) (cache : Nat → α) (k : Nat) : List (LogIo α) :=
  writeLog lh cache ++ .head lh :: (installTrans lh).take k

def CommitOk (lh : LogHeader) (cache : Nat → α) (pins : Nat → Int) (logged : List Nat) (writes : List (LogIo α)) :
    CommitPc → Prop
  | .test => Held pins logged lh 0 ∧ writes = []
  | .writeLog tail => Held pins logged lh 0 ∧ 0 < lh.n ∧ tail ≤ lh.n ∧ (0 < tail → lh.n < nbuf) ∧
      writes = (writeLog lh cache).take tail
  | .writeHead => Held pins logged lh 0 ∧ 0 < lh.n ∧ lh.n < nbuf ∧ writes = writeLog lh cache
  | .installTrans tail => Held pins logged lh tail ∧ 0 < lh.n ∧ lh.n < nbuf ∧ tail ≤ lh.n ∧
      writes = committedWrites lh cache tail
  | .clear => Held pins logged lh lh.n ∧ 0 < lh.n ∧ lh.n < nbuf ∧ writes = committedWrites lh cache lh.n
  | .erase => ∃ lh₀, lh = lh₀.clear ∧ Held pins logged lh₀ lh₀.n ∧ 0 < lh₀.n ∧ lh₀.n < nbuf ∧
      writes = committedWrites lh₀ cache lh₀.n
  | .finish => lh.n = 0 ∧ ∃ lh₀, Held pins logged lh₀ lh₀.n ∧ lh₀.n < nbuf ∧ writes = Xv6.commit lh₀ cache

structure LogInv [Fintype T] (s : LogState T α) : Prop where
  ops : s.outstanding = weigh LogPc.inOp s.pc
  commits : weigh LogPc.inCommit s.pc = if s.committing then 1 else 0
  quiet : s.committing = true → s.outstanding = 0
  held : s.committing = false → Held s.pins s.logged s.lh 0
  empty : s.committing = false → s.outstanding = 0 → s.lh.n = 0
  commit : ∀ p k l, s.pc p = .commit k l → CommitOk s.lh s.cache s.pins s.logged s.writes k
  sleepers : ∀ p, (s.pc p).Waits → s.committing = true ∨ 1 ≤ s.outstanding
  panic : s.panic ≠ some .committing

/-! ## Counting threads -/

theorem LogPc.Passive.inOp {c : LogPc} (h : c.Passive) : c.inOp = 0 := by
  cases c <;> first | rfl | exact h.elim

theorem LogPc.Passive.inCommit {c : LogPc} (h : c.Passive) : c.inCommit = 0 := by
  cases c <;> first | rfl | exact h.elim

@[simp] theorem LogPc.inOp_wake (c : LogPc) : c.wake.inOp = c.inOp := by cases c <;> rfl

@[simp] theorem LogPc.inCommit_wake (c : LogPc) : c.wake.inCommit = c.inCommit := by cases c <;> rfl

theorem LogPc.not_waits_wake (c : LogPc) : ¬ c.wake.Waits := by
  cases c <;> simp [LogPc.wake, LogPc.Waits]

theorem LogPc.commit_of_wake {c : LogPc} {k : CommitPc} {l : List Nat} (h : c.wake = .commit k l) :
    c = .commit k l := by
  cases c <;> first | exact h | simp [LogPc.wake] at h

section Inv
variable [Fintype T] {s : LogState T α} {p q : T}

theorem LogInv.no_op (h : LogInv s) (hc : s.committing = true) (p : T) (l : List Nat) : s.pc p ≠ .op l := by
  intro hp
  have hle := le_weigh LogPc.inOp s.pc p
  have hzero := h.quiet hc
  rw [h.ops] at hzero
  rw [hp, show LogPc.inOp (.op l) = 1 from rfl] at hle
  omega

theorem LogInv.committing_of (h : LogInv s) {k : CommitPc} {l : List Nat} (hp : s.pc p = .commit k l) :
    s.committing = true := by
  have hle := le_weigh LogPc.inCommit s.pc p
  rw [h.commits, hp, show LogPc.inCommit (.commit k l) = 1 from rfl] at hle
  by_contra hc
  rw [if_neg hc] at hle
  omega

theorem LogInv.commit_unique [DecidableEq T] (h : LogInv s) {k k' : CommitPc} {l l' : List Nat}
    (hp : s.pc p = .commit k l) (hq : s.pc q = .commit k' l') : q = p := by
  refine eq_of_weigh_le_one LogPc.inCommit s.pc ?_ (by rw [hq]; exact Nat.one_pos)
    (by rw [hp]; exact Nat.one_pos)
  rw [h.commits]
  split <;> omega

/-- An operation that is under way counts, so no commit is. -/
theorem LogInv.op (h : LogInv s) {l : List Nat} (hp : s.pc p = .op l) : s.committing = false ∧ 1 ≤ s.outstanding := by
  have hle := le_weigh LogPc.inOp s.pc p
  rw [hp, show LogPc.inOp (.op l) = 1 from rfl] at hle
  refine ⟨?_, by rw [h.ops]; omega⟩
  by_contra hc
  exact h.no_op (by simpa using hc) p l hp

theorem weigh_wakeup (s : LogState T α) :
    weigh LogPc.inOp s.wakeup.pc = weigh LogPc.inOp s.pc ∧
      weigh LogPc.inCommit s.wakeup.pc = weigh LogPc.inCommit s.pc :=
  ⟨weigh_congr fun _ => LogPc.inOp_wake _, weigh_congr fun _ => LogPc.inCommit_wake _⟩

/-- The weights after the move of one thread. -/
theorem weigh_setPc [DecidableEq T] (s : LogState T α) (p : T) (c : LogPc) :
    weigh LogPc.inOp (s.setPc p c).pc + (s.pc p).inOp = weigh LogPc.inOp s.pc + c.inOp ∧
      weigh LogPc.inCommit (s.setPc p c).pc + (s.pc p).inCommit = weigh LogPc.inCommit s.pc + c.inCommit :=
  ⟨weigh_update _ _ _ _, weigh_update _ _ _ _⟩

end Inv

/-! ## One step -/

theorem logInv_init [Fintype T] (d : Disk α) : LogInv (.init d : LogState T α) where
  ops := by
    have hzero : weigh LogPc.inOp (fun _ : T => LogPc.user) = 0 := weigh_eq_zero fun _ => rfl
    simp [LogState.init, hzero]
  commits := weigh_eq_zero fun _ => rfl
  quiet h := by simp [LogState.init] at h
  held _ := ⟨List.nodup_nil, fun b => by simp [LogState.init, LogHeader.blocks], fun b => by
    simp [LogState.init, LogHeader.blocks]⟩
  empty _ _ := rfl
  commit _ _ _ h := by simp [LogState.init] at h
  sleepers _ h := h.elim
  panic := by simp [LogState.init]

section Step
variable [DecidableEq T]

@[simp] theorem pc_setPc_self (s : LogState T α) (p : T) (c : LogPc) : (s.setPc p c).pc p = c :=
  update_self _ _ _

theorem pc_setPc_of_ne {s : LogState T α} {p q : T} {c : LogPc} (h : q ≠ p) : (s.setPc p c).pc q = s.pc q :=
  update_of_ne h _ _

variable [Fintype T] {s t : LogState T α} {p : T} {k : CommitPc} {l : List Nat} {b : Nat} {v : α}

theorem LogInv.move (h : LogInv s) {c : LogPc} (hp : (s.pc p).Passive) (hc : c.Passive)
    (hw : c.Waits → (s.pc p).Waits ∨ s.committing = true ∨ s.Full) : LogInv (s.setPc p c) := by
  obtain ⟨hop, hco⟩ := weigh_setPc s p c
  rw [hp.inOp, hc.inOp] at hop
  rw [hp.inCommit, hc.inCommit] at hco
  refine ⟨?_, hco.trans h.commits, h.quiet, h.held, h.empty, fun q k l hq => ?_, fun q hq => ?_, h.panic⟩
  · exact h.ops.trans (congrArg Nat.cast hop.symm)
  · by_cases hqp : q = p
    · rw [hqp, pc_setPc_self] at hq
      rw [hq] at hc
      exact hc.elim
    · rw [pc_setPc_of_ne hqp] at hq
      exact h.commit q k l hq
  · by_cases hqp : q = p
    · rw [hqp, pc_setPc_self] at hq
      rcases hw hq with hwait | hcom | hfull
      · exact h.sleepers p hwait
      · exact Or.inl hcom
      · -- with no operation outstanding and no commit the header is empty, and the log is not full
        by_contra hno
        obtain ⟨hcom, hout⟩ := not_or.mp hno
        have hcom : s.committing = false := by simpa [LogState.setPc] using hcom
        have hzero : s.outstanding = 0 := by
          have hout : ¬ 1 ≤ s.outstanding := hout
          have := h.ops
          omega
        have hn := h.empty hcom hzero
        simp [LogState.Full, hn, hzero, logblocks, maxopblocks] at hfull
    · rw [pc_setPc_of_ne hqp] at hq
      exact h.sleepers q hq

theorem LogInv.enter (h : LogInv s) (hp : s.pc p = .beginOp .awake) (hc : s.committing = false) :
    LogInv (.setPc { s with outstanding := s.outstanding + 1 } p (.op [])) := by
  obtain ⟨hop, hco⟩ := weigh_setPc { s with outstanding := s.outstanding + 1 } p (.op [])
  simp only [hp, LogPc.inOp, LogPc.inCommit, Nat.add_zero] at hop hco
  have hout : s.outstanding = (weigh LogPc.inOp s.pc : Nat) := h.ops
  refine ⟨?_, hco.trans h.commits, fun hcom => ?_, h.held, fun _ hz => ?_, fun q k l hq => ?_, fun q hq => ?_, h.panic⟩
  · rw [hop]
    simp [LogState.setPc, hout]
  · simp [LogState.setPc, hc] at hcom
  · simp only [LogState.setPc] at hz
    omega
  · by_cases hqp : q = p
    · rw [hqp, pc_setPc_self] at hq
      cases hq
    · rw [pc_setPc_of_ne hqp] at hq
      exact h.commit q k l hq
  · refine Or.inr ?_
    simp only [LogState.setPc]
    omega

/-- `log_write()` by an operation, with what it does to the header and the pins. -/
theorem LogInv.logged (h : LogInv s) (hp : s.pc p = .op l) {l' : List Nat}
    (hlh : Held t.pins t.logged t.lh 0) (hpc : t.pc = update s.pc p (.op l'))
    (ho : t.outstanding = s.outstanding) (hc : t.committing = s.committing) (hpanic : t.panic = s.panic) :
    LogInv t := by
  obtain ⟨hcom, hout⟩ := h.op hp
  have hop := weigh_update LogPc.inOp s.pc p (.op l')
  have hco := weigh_update LogPc.inCommit s.pc p (.op l')
  simp only [hp, LogPc.inOp, LogPc.inCommit, Nat.add_zero, Nat.add_right_cancel_iff, ← hpc] at hop hco
  refine ⟨?_, ?_, ?_, fun _ => hlh, fun _ hz => ?_, fun q k l hq => ?_, fun q hq => ?_, ?_⟩
  · rw [ho, hop, h.ops]
  · rw [hco, h.commits, hc]
  · rw [hc, hcom]
    simp
  · rw [ho] at hz
    omega
  · by_cases hqp : q = p
    · rw [hpc, hqp, update_self] at hq
      cases hq
    · rw [hpc, update_of_ne hqp] at hq
      have := h.committing_of hq
      simp [hcom] at this
  · rw [ho]
    exact Or.inr hout
  · rw [hpanic]
    exact h.panic

theorem LogInv.last (h : LogInv s) (hp : s.pc p = .op l) (ho : s.outstanding = 1) :
    LogInv (.setPc { s with outstanding := 0, committing := true, writes := [] } p (.commit .test l)) := by
  obtain ⟨hop, hco⟩ := weigh_setPc { s with outstanding := 0, committing := true, writes := [] } p (.commit .test l)
  obtain ⟨hcom, -⟩ := h.op hp
  simp only [hp, LogPc.inOp, LogPc.inCommit, Nat.add_zero] at hop hco
  have hcount : s.outstanding = (weigh LogPc.inOp s.pc : Nat) := h.ops
  refine ⟨?_, ?_, fun _ => rfl, fun hc => ?_, fun hc => ?_, fun q k l' hq => ?_, fun _ _ => Or.inl rfl, h.panic⟩
  · simp only [LogState.setPc] at hop ⊢
    omega
  · rw [hco, h.commits, hcom]
    simp [LogState.setPc]
  · simp [LogState.setPc] at hc
  · simp [LogState.setPc] at hc
  · by_cases hqp : q = p
    · rw [hqp, pc_setPc_self] at hq
      cases hq
      exact ⟨h.held hcom, rfl⟩
    · rw [pc_setPc_of_ne hqp] at hq
      have := h.committing_of (p := q) hq
      simp [hcom] at this

theorem LogInv.leave (h : LogInv s) (hp : s.pc p = .op l) (ho : s.outstanding ≠ 1) :
    LogInv (.wakeup
      (.setPc { s with outstanding := s.outstanding - 1, ended := s.ended ++ [⟨s.ncommit, l⟩] } p .user)) := by
  obtain ⟨hop, hco⟩ := weigh_setPc
    { s with outstanding := s.outstanding - 1, ended := s.ended ++ [⟨s.ncommit, l⟩] } p .user
  set u := LogState.setPc { s with outstanding := s.outstanding - 1, ended := s.ended ++ [⟨s.ncommit, l⟩] } p .user
  obtain ⟨hwo, hwc⟩ := weigh_wakeup u
  obtain ⟨hcom, hout⟩ := h.op hp
  simp only [hp, LogPc.inOp, LogPc.inCommit, Nat.add_zero] at hop hco
  have hcount : s.outstanding = (weigh LogPc.inOp s.pc : Nat) := h.ops
  refine ⟨?_, ?_, fun hc => ?_, h.held, fun _ hz => ?_, fun q k l' hq => ?_, fun q hq => ?_, h.panic⟩
  · have hu : u.wakeup.outstanding = s.outstanding - 1 := rfl
    rw [hwo, hu]
    omega
  · exact hwc.trans (hco.trans h.commits)
  · have : s.committing = true := hc
    simp [hcom] at this
  · have : s.outstanding - 1 = 0 := hz
    omega
  · have hq := LogPc.commit_of_wake hq
    by_cases hqp : q = p
    · rw [hqp, pc_setPc_self] at hq
      cases hq
    · rw [pc_setPc_of_ne hqp] at hq
      have := h.committing_of (p := q) hq
      simp [hcom] at this
  · exact absurd hq (LogPc.not_waits_wake _)

/-! ## The steps of `commit()` -/

/-- A step of `commit()` to `k'` that leaves the counters as they are. -/
theorem LogInv.advance (h : LogInv s) {k' : CommitPc} (hp : s.pc p = .commit k l)
    (hpc : t.pc = update s.pc p (.commit k' l)) (ho : t.outstanding = s.outstanding) (hc : t.committing = s.committing)
    (hpanic : t.panic = s.panic) (hok : CommitOk t.lh t.cache t.pins t.logged t.writes k') : LogInv t := by
  have hcom := h.committing_of hp
  have hop := weigh_update LogPc.inOp s.pc p (.commit k' l)
  have hco := weigh_update LogPc.inCommit s.pc p (.commit k' l)
  simp only [hp, LogPc.inOp, LogPc.inCommit, Nat.add_zero, Nat.add_right_cancel_iff, ← hpc] at hop hco
  refine ⟨?_, ?_, ?_, ?_, ?_, fun q k'' l' hq => ?_, fun q hq => Or.inl (hc.trans hcom), hpanic ▸ h.panic⟩
  · rw [ho, hop, h.ops]
  · rw [hco, h.commits, hc]
  · rw [ho, hc]
    exact h.quiet
  · rw [hc, hcom]
    simp
  · rw [hc, hcom]
    simp
  · by_cases hqp : q = p
    · rw [hpc, hqp, update_self] at hq
      cases hq
      exact hok
    · rw [hpc, update_of_ne hqp] at hq
      exact absurd (h.commit_unique hp hq) hqp

/-- The pin of block `tail` is dropped. -/
theorem Held.unpin {pins : Nat → Int} {logged : List Nat} {lh : LogHeader} {tail : Nat} (h : Held pins logged lh tail)
    (ht : tail < lh.n) : Held (update pins (lh.block tail) (pins (lh.block tail) - 1)) logged lh (tail + 1) := by
  have hlen : tail < lh.blocks.length := by simpa using ht
  have hdrop : lh.blocks.drop tail = lh.block tail :: lh.blocks.drop (tail + 1) := by
    rw [List.drop_eq_getElem_cons hlen, LogHeader.getElem_blocks]
  have hnd := h.nodup.sublist (List.drop_sublist tail lh.blocks)
  rw [hdrop, List.nodup_cons] at hnd
  refine ⟨h.nodup, h.logged, fun b => ?_⟩
  by_cases hb : b = lh.block tail
  · rw [hb, update_self, h.pins, hdrop, if_pos (by simp), if_neg hnd.1]
    rfl
  · rw [update_of_ne hb, h.pins, hdrop]
    simp [hb]

theorem LogInv.finish (h : LogInv s) (hp : s.pc p = .commit .finish l) : LogInv (s.commit start p l .finish) := by
  have hcom := h.committing_of hp
  obtain ⟨hn, lh, hheld, -, -⟩ := h.commit p _ l hp
  obtain ⟨hop, hco⟩ := weigh_setPc { s with
    committing := false, ncommit := s.ncommit + 1, logged := [], ended := s.ended ++ [⟨s.ncommit, l⟩] } p .user
  set u := LogState.setPc { s with
    committing := false, ncommit := s.ncommit + 1, logged := [], ended := s.ended ++ [⟨s.ncommit, l⟩] } p .user
  obtain ⟨hwo, hwc⟩ := weigh_wakeup u
  have hcommits := h.commits
  simp only [hp, LogPc.inOp, LogPc.inCommit, Nat.add_zero] at hop hco
  rw [hcom, if_pos rfl] at hcommits
  have hblocks : s.lh.blocks = [] := LogHeader.blocks_eq_nil hn
  change LogInv u.wakeup
  refine ⟨?_, ?_, fun hc => absurd hc (by simp [u, LogState.wakeup, LogState.setPc]), fun _ => ?_, fun _ _ => hn,
    fun q k l' hq => ?_, fun q hq => ?_, h.panic⟩
  · rw [hwo, hop]
    exact h.ops
  · rw [hwc]
    have hu : u.wakeup.committing = false := rfl
    simp only [hu, Bool.false_eq_true, if_false]
    omega
  · have hu : u.wakeup.lh = s.lh := rfl
    rw [hu]
    refine ⟨hblocks ▸ List.nodup_nil, fun b => by rw [hblocks]; exact Iff.rfl, fun b => ?_⟩
    rw [hblocks]
    refine (hheld.pins b).trans ?_
    rw [List.drop_of_length_le (by simp)]
    rfl
  · have hq := LogPc.commit_of_wake hq
    by_cases hqp : q = p
    · rw [hqp, pc_setPc_self] at hq
      cases hq
    · rw [pc_setPc_of_ne hqp] at hq
      exact absurd (h.commit_unique hp hq) hqp
  · exact absurd hq (LogPc.not_waits_wake _)

theorem take_map_range_full {β : Type*} (f : Nat → β) {k n : Nat} (h : ¬ k < n) :
    ((List.range n).map f).take k = (List.range n).map f :=
  List.take_of_length_le (by simpa using h)

theorem LogInv.commitStep (h : LogInv s) (hp : s.pc p = .commit k l) : LogInv (s.commit start p l k) := by
  have hok := h.commit p k l hp
  cases k with
  | test =>
    obtain ⟨hheld, hw⟩ := hok
    by_cases hn : s.lh.n > 0
    · simp only [LogState.commit, if_pos hn]
      exact h.advance hp rfl rfl rfl rfl ⟨hheld, hn, Nat.zero_le _, fun ht => absurd ht (Nat.lt_irrefl 0), hw⟩
    · simp only [LogState.commit, if_neg hn]
      have hzero := Nat.eq_zero_of_not_pos hn
      refine h.advance hp rfl rfl rfl rfl ⟨hzero, s.lh, ?_, by rw [hzero]; decide, ?_⟩
      · rw [hzero]
        exact hheld
      · rw [Xv6.commit, if_neg hn]
        exact hw
  | writeLog tail =>
    obtain ⟨hheld, hn, htail, hroom, hw⟩ := hok
    by_cases ht : tail < s.lh.n
    · by_cases hfull : nbuf ≤ s.lh.n
      · simp only [LogState.commit, if_pos ht, if_pos hfull]
        exact { h with panic := by simp }
      · simp only [LogState.commit, if_pos ht, if_neg hfull]
        refine h.advance hp rfl rfl rfl rfl ⟨hheld, hn, ht, fun _ => Nat.lt_of_not_le hfull, ?_⟩
        change s.writes ++ [_] = _
        rw [hw, writeLog, ← take_map_range _ ht]
        rfl
    · simp only [LogState.commit, if_neg ht]
      refine h.advance hp rfl rfl rfl rfl ⟨hheld, hn, hroom (by omega), ?_⟩
      exact hw.trans (take_map_range_full _ ht)
  | writeHead =>
    obtain ⟨hheld, hn, hroom, hw⟩ := hok
    refine h.advance hp rfl rfl rfl rfl ⟨hheld, hn, hroom, Nat.zero_le _, ?_⟩
    exact congrArg (· ++ [LogIo.head s.lh]) hw
  | installTrans tail =>
    obtain ⟨hheld, hn, hroom, htail, hw⟩ := hok
    by_cases ht : tail < s.lh.n
    · simp only [LogState.commit, if_pos ht]
      refine h.advance hp rfl rfl rfl rfl ⟨hheld.unpin ht, hn, hroom, ht, ?_⟩
      change s.writes ++ [_] = committedWrites s.lh s.cache (tail + 1)
      rw [hw, committedWrites, committedWrites, installTrans, take_map_range _ ht]
      simp
    · simp only [LogState.commit, if_neg ht]
      obtain rfl : tail = s.lh.n := by omega
      exact h.advance hp rfl rfl rfl rfl ⟨hheld, hn, hroom, hw⟩
  | clear =>
    obtain ⟨hheld, hn, hroom, hw⟩ := hok
    exact h.advance hp rfl rfl rfl rfl ⟨s.lh, rfl, hheld, hn, hroom, hw⟩
  | erase =>
    obtain ⟨lh, hlh, hheld, hn, hroom, hw⟩ := hok
    refine h.advance hp rfl rfl rfl rfl ⟨by change s.lh.n = 0; rw [hlh]; rfl, lh, hheld, hroom, ?_⟩
    change s.writes ++ [.head s.lh] = Xv6.commit lh s.cache
    rw [hw, hlh, Xv6.commit, if_pos hn, committedWrites, installTrans, take_map_range_full _ (Nat.lt_irrefl _)]
    simp
  | finish => exact h.finish hp

theorem LogInv.step {a : LogCall α} (h : LogInv s) (hs : LogStep start s p a t) : LogInv t := by
  cases hs with
  | move a c hp hc hw => exact h.move hp hc hw
  | stay hp => exact h
  | enter hp hc hf => exact h.enter hp hc
  | tooBig l b v hp hn => exact { h with panic := by simp }
  | outside l b v hp ho => exact { h with panic := by simp }
  | clash l hp hc => exact absurd hp (h.no_op hc p l)
  | absorb l b v hp hn hb =>
    have hheld := h.held (h.op hp).1
    refine h.logged hp ⟨hheld.nodup, fun c => ?_, hheld.pins⟩ rfl rfl rfl rfl
    change c ∈ s.lh.blocks ↔ c ∈ s.logged ++ [b]
    rw [List.mem_append, List.mem_singleton, ← hheld.logged]
    exact ⟨Or.inl, fun hc => hc.elim id fun hcb => hcb ▸ hb⟩
  | append l b v lh hp hn hb hlh =>
    have hheld := h.held (h.op hp).1
    refine h.logged hp ⟨?_, fun c => ?_, fun c => ?_⟩ rfl rfl rfl rfl
    · change lh.blocks.Nodup
      rw [hlh]
      exact List.nodup_append.mpr ⟨hheld.nodup, List.nodup_singleton b, fun c hc d hd => by
        rw [List.mem_singleton.mp hd]
        exact fun hcb => hb (hcb ▸ hc)⟩
    · change c ∈ lh.blocks ↔ c ∈ s.logged ++ [b]
      rw [hlh, List.mem_append, List.mem_append, hheld.logged]
    · change update s.pins b (s.pins b + 1) c = if c ∈ lh.blocks.drop 0 then 1 else 0
      rw [hlh, List.drop_zero]
      by_cases hcb : c = b
      · have hzero := hheld.pins b
        rw [List.drop_zero, if_neg hb] at hzero
        rw [hcb, update_self, hzero, if_pos (by simp)]
        rfl
      · rw [update_of_ne hcb, hheld.pins, List.drop_zero]
        simp [hcb]
  | last l hp hc ho => exact h.last hp ho
  | leave l hp hc ho => exact h.leave hp ho
  | commit k l hp => exact h.commitStep hp

end Step

/-! ## The writes, and what they make of the disk -/

/-- The blocks of the headers among these writes, where there are any. -/
def headers (ws : List (LogIo α)) : List (List Nat) := ws.filterMap fun
  | .head lh => if lh.n = 0 then none else some lh.blocks
  | _ => none

structure Recorded (start : Nat) (d : Disk α) (s : LogState T α) : Prop where
  disk : s.disk = d.after start s.ios
  writes : s.writes <:+ s.ios
  headers : headers s.ios = s.groups.filter (· ≠ [])
  bound : s.lh.n ≤ logblocks
  full : s.panic = some .noBuffers → nbuf ≤ s.lh.n ∧ s.writes = []

section Recorded
variable {d : Disk α} {s t : LogState T α} {w : LogIo α}

/-- A step that writes nothing. -/
theorem Recorded.keep (h : Recorded start d s) (hdisk : t.disk = s.disk) (hios : t.ios = s.ios)
    (hwrites : t.writes = s.writes ∨ t.writes = []) (hgroups : t.groups.filter (· ≠ []) = s.groups.filter (· ≠ []))
    (hbound : t.lh.n ≤ logblocks) (hfull : t.panic ≠ some .noBuffers) : Recorded start d t := by
  refine ⟨by rw [hdisk, hios, h.disk], ?_, by rw [hios, hgroups, h.headers], hbound, fun hc => absurd hc hfull⟩
  rcases hwrites with hw | hw
  · rw [hw, hios]
    exact h.writes
  · rw [hw]
    exact List.nil_suffix

theorem Recorded.io (h : Recorded start d s) (hdisk : t.disk = w.write start s.disk) (hios : t.ios = s.ios ++ [w])
    (hwrites : t.writes = s.writes ++ [w])
    (hgroups : t.groups.filter (· ≠ []) = s.groups.filter (· ≠ []) ++ Xv6.headers [w]) (hlh : t.lh = s.lh)
    (hpanic : t.panic = none) : Recorded start d t := by
  refine ⟨?_, ?_, ?_, hlh ▸ h.bound, fun hc => by rw [hpanic] at hc; cases hc⟩
  · rw [hdisk, hios, Disk.after, List.foldl_concat, h.disk]
    rfl
  · obtain ⟨pre, hpre⟩ := h.writes
    exact ⟨pre, by rw [hwrites, hios, ← hpre, List.append_assoc]⟩
  · rw [hios, hgroups, ← h.headers]
    exact List.filterMap_append

end Recorded

/-! ## Whole runs -/

section Run
variable [DecidableEq T] [Fintype T] {s : LogState T α} {d : Disk α}

theorem logInv_of_reachable (h : Reachable (LogState.step start) (.init d) s) : LogInv s :=
  h.invariant (logInv_init d) fun _ _ _ _ hi hs => hi.step (logStep_of_step hs)

theorem Recorded.commit {p : T} {l : List Nat} {k : CommitPc} (h : Recorded start d s) (hi : LogInv s)
    (hpanic : s.panic = none) (hp : s.pc p = .commit k l) : Recorded start d (s.commit start p l k) := by
  have hok := hi.commit p k l hp
  have hno : s.panic ≠ some .noBuffers := by simp [hpanic]
  have hblocks : ∀ lh : LogHeader, lh.n ≠ 0 → lh.blocks ≠ [] := fun lh hn hc => hn (by rw [← lh.length_blocks, hc]; rfl)
  cases k with
  | test =>
    simp only [LogState.commit]
    split
    · exact h.keep rfl rfl (.inl rfl) rfl h.bound hno
    · exact h.keep rfl rfl (.inl rfl) (by simp [LogState.setPc]) h.bound hno
  | writeLog tail =>
    simp only [LogState.commit]
    split_ifs with ht hfull
    · -- the first turn of the loop, before any write
      obtain ⟨-, -, -, hroom, hw⟩ := hok
      have hzero : tail = 0 := by
        by_contra hne
        exact Nat.not_lt.mpr hfull (hroom (Nat.pos_of_ne_zero hne))
      rw [hzero] at hw
      exact ⟨h.disk, h.writes, h.headers, h.bound, fun _ => ⟨hfull, hw⟩⟩
    · exact h.io rfl rfl rfl (List.append_nil _).symm rfl hpanic
    · exact h.keep rfl rfl (.inl rfl) rfl h.bound hno
  | writeHead =>
    have hn : s.lh.n ≠ 0 := Nat.ne_of_gt hok.2.1
    refine h.io rfl rfl rfl ?_ rfl hpanic
    simp [LogState.commit, LogState.setPc, Xv6.headers, hn, hblocks s.lh hn]
  | installTrans tail =>
    simp only [LogState.commit]
    split
    · exact h.io rfl rfl rfl (List.append_nil _).symm rfl hpanic
    · exact h.keep rfl rfl (.inl rfl) rfl h.bound hno
  | clear => exact h.keep rfl rfl (.inl rfl) rfl (Nat.zero_le _) hno
  | erase =>
    obtain ⟨lh, hlh, -⟩ := hok
    refine h.io rfl rfl rfl ?_ rfl hpanic
    rw [hlh]
    simp [LogState.commit, LogState.io, LogState.setPc, Xv6.headers, LogHeader.clear]
  | finish => exact h.keep rfl rfl (.inl rfl) rfl h.bound hno

theorem Recorded.step {t : LogState T α} {p : T} {a : LogCall α} (h : Recorded start d s) (hi : LogInv s)
    (hpanic : s.panic = none) (hs : LogStep start s p a t) : Recorded start d t := by
  have hno : s.panic ≠ some .noBuffers := by simp [hpanic]
  cases hs with
  | stay => exact h
  | move | enter | absorb | leave => exact h.keep rfl rfl (.inl rfl) rfl h.bound hno
  | tooBig | outside | clash => exact h.keep rfl rfl (.inl rfl) rfl h.bound (by simp)
  | append l b v lh hp hn hb hlh =>
    refine h.keep rfl rfl (.inl rfl) rfl ?_ hno
    have hlen := congrArg List.length hlh
    simp only [LogHeader.length_blocks, List.length_append, List.length_singleton] at hlen
    exact hlen ▸ hn
  | last => exact h.keep rfl rfl (.inr rfl) rfl h.bound hno
  | commit k l hp => exact h.commit hi hpanic hp

omit [Fintype T] in
theorem panic_of_step {t : LogState T α} {l : T × LogCall α} (h : s.step start l = some t) : s.panic = none := by
  cases hpanic : s.panic with
  | none => rfl
  | some e => simp [LogState.step, hpanic] at h

theorem recorded_of_reachable (h : Reachable (LogState.step start) (.init d) s) : Recorded start d s :=
  h.invariant ⟨rfl, List.nil_suffix, rfl, Nat.zero_le _, fun hc => by simp [LogState.init] at hc⟩
    fun _ _ _ hr hi hs => hi.step (logInv_of_reachable hr) (panic_of_step hs) (logStep_of_step hs)

/-- How many blocks of the header `install_trans()` has unpinned. -/
def CommitPc.unpinned (n : Nat) : CommitPc → Nat
  | .installTrans tail => tail
  | .clear => n
  | _ => 0

/-- `commit()` has installed block `b` but not yet set `log.lh.n` to 0. -/
def Unpinned (s : LogState T α) (b : Nat) : Prop :=
  ∃ p k l, s.pc p = .commit k l ∧ b ∈ s.lh.blocks.take (k.unpinned s.lh.n)

theorem CommitOk.pinned {lh : LogHeader} {cache : Nat → α} {pins : Nat → Int} {logged : List Nat}
    {writes : List (LogIo α)} {k : CommitPc} (h : CommitOk lh cache pins logged writes k) :
    lh.blocks.Nodup ∧ ∀ b, pins b = if b ∈ lh.blocks.drop (k.unpinned lh.n) then 1 else 0 := by
  cases k with
  | test => exact ⟨h.1.nodup, h.1.pins⟩
  | writeLog tail => exact ⟨h.1.nodup, h.1.pins⟩
  | writeHead => exact ⟨h.1.nodup, h.1.pins⟩
  | installTrans tail => exact ⟨h.1.nodup, h.1.pins⟩
  | clear => exact ⟨h.1.nodup, h.1.pins⟩
  | erase =>
    obtain ⟨lh₀, rfl, hheld, -⟩ := h
    refine ⟨by simp, fun b => (hheld.pins b).trans ?_⟩
    rw [List.drop_of_length_le (by simp)]
    simp
  | finish =>
    obtain ⟨hn, lh₀, hheld, -⟩ := h
    rw [LogHeader.blocks_eq_nil hn]
    refine ⟨List.nodup_nil, fun b => (hheld.pins b).trans ?_⟩
    rw [List.drop_of_length_le (by simp)]
    simp

omit [DecidableEq T] in
theorem LogInv.exists_commit (h : LogInv s) (hc : s.committing = true) : ∃ p k l, s.pc p = .commit k l := by
  by_contra hno
  have hzero : weigh LogPc.inCommit s.pc = 0 := by
    refine weigh_eq_zero fun q => ?_
    cases hq : s.pc q with
    | commit k l => exact absurd ⟨q, k, l, hq⟩ hno
    | user | beginOp | op | sync => rfl
  rw [h.commits, hc] at hzero
  cases hzero

theorem LogInv.pinned (h : LogInv s) : ∃ k, s.lh.blocks.Nodup ∧
    (∀ b, s.pins b = if b ∈ s.lh.blocks.drop k then 1 else 0) ∧ ∀ b, b ∈ s.lh.blocks.take k ↔ Unpinned s b := by
  cases hc : s.committing with
  | false =>
    refine ⟨0, (h.held hc).nodup, (h.held hc).pins, fun b => ⟨fun hb => by simp at hb, ?_⟩⟩
    rintro ⟨p, k, l, hp, -⟩
    simp [h.committing_of hp] at hc
  | true =>
    obtain ⟨p, k, l, hp⟩ := h.exists_commit hc
    obtain ⟨hnd, hpins⟩ := (h.commit p k l hp).pinned
    refine ⟨k.unpinned s.lh.n, hnd, hpins, fun b => ⟨fun hb => ⟨p, k, l, hp, hb⟩, ?_⟩⟩
    rintro ⟨q, k', l', hq, hb⟩
    rw [h.commit_unique hp hq, hp] at hq
    cases hq
    exact hb

omit [Fintype T] in
/-- A step of `commit()` moves its thread on in `commit()`, or out of `end_op()`. -/
theorem pc_commit (start : Nat) {p : T} {l : List Nat} {k : CommitPc} (hp : s.pc p = .commit k l) :
    (∃ k', ∀ q, (s.commit start p l k).pc q = update s.pc p (.commit k' l) q) ∨
      ∀ q, (s.commit start p l k).pc q = (update s.pc p .user q).wake := by
  cases k with
  | finish => exact Or.inr fun q => rfl
  | test | installTrans tail =>
    simp only [LogState.commit]
    split <;> exact Or.inl ⟨_, fun q => rfl⟩
  | writeLog tail =>
    simp only [LogState.commit]
    split_ifs
    · exact Or.inl ⟨_, fun q => by rw [← hp, update_eq_self]⟩
    · exact Or.inl ⟨_, fun q => rfl⟩
    · exact Or.inl ⟨_, fun q => rfl⟩
  | writeHead | clear | erase => exact Or.inl ⟨_, fun q => rfl⟩

/-- A thread is in an operation after its step only if it was admitted, or was in one. -/
theorem LogInv.committing_false_of_op {t : LogState T α} {p : T} {l : List Nat} (h : LogInv s)
    {a : LogCall α} (hs : LogStep start s p a t) (hop : t.pc p = .op l) : s.committing = false := by
  cases hs with
  | move a c hp hc hw =>
    rw [pc_setPc_self] at hop
    rw [hop] at hc
    exact hc.elim
  | stay hp | tooBig _ b v hp hn | outside _ b v hp ho | clash _ hp hc => exact (h.op hop).1
  | enter hp hc hf => exact hc
  | absorb _ b v hp hn hb | append _ b v lh hp hn hb hlh | last _ hp hc ho | leave _ hp hc ho => exact (h.op hp).1
  | commit k l' hp =>
    rcases pc_commit start hp with ⟨k', hpc⟩ | hpc
    · rw [hpc, update_self] at hop
      cases hop
    · rw [hpc, update_self] at hop
      cases hop

/-- **The group-commit protocol.** While a commit runs no operation is outstanding, none is admitted and none
logs; `commit()` issues the writes of exactly the blocks logged by operations that have all called `end_op()`,
and the disk gets them; only with `NBUF` blocks it panics, before its first write; no block is in the header
twice, and each is pinned once until `install_trans()` has installed it; `end_op()` does not panic; a process
SLEEPING in `begin_op()` waits for an operation or a commit. -/
theorem group_commit (d : Disk α) (s : LogState T α) (hs : Reachable (LogState.step start) (.init d) s) :
    (s.committing = true → s.outstanding = 0 ∧ ∀ p l, s.pc p ≠ .op l) ∧
    (∀ p a t, s.step start (p, a) = some t → (∃ l, t.pc p = .op l) → s.committing = false) ∧
    (∀ p l, s.pc p = .commit .finish l → ∃ lh, lh.n < nbuf ∧ lh.blocks.Nodup ∧
      (∀ b, b ∈ lh.blocks ↔ b ∈ s.logged) ∧ s.writes = commit lh s.cache) ∧
    s.writes <:+ s.ios ∧ s.disk = d.after start s.ios ∧
    (s.panic = some .noBuffers → s.lh.n = nbuf ∧ s.writes = []) ∧
    s.lh.blocks.Nodup ∧
    (∀ b, b ∈ s.lh.blocks → ¬ Unpinned s b → s.pins b = 1) ∧
    (∀ b, b ∉ s.lh.blocks ∨ Unpinned s b → s.pins b = 0) ∧
    s.panic ≠ some .committing ∧
    (∀ p, s.pc p = .beginOp .sleeping → s.committing = true ∨ 1 ≤ s.outstanding) := by
  have h := logInv_of_reachable hs
  obtain ⟨k, hnd, hpins, hun⟩ := h.pinned
  have hsplit : ∀ b, b ∈ s.lh.blocks ↔ b ∈ s.lh.blocks.take k ∨ b ∈ s.lh.blocks.drop k := fun b => by
    rw [← List.mem_append, List.take_append_drop]
  have hrec := recorded_of_reachable hs
  refine ⟨fun hc => ⟨h.quiet hc, h.no_op hc⟩, fun p a t hstep hop => ?_, fun p l hp => ?_, hrec.writes, hrec.disk,
    fun hc => ⟨Nat.le_antisymm hrec.bound (hrec.full hc).1, (hrec.full hc).2⟩, hnd, fun b hb hu => ?_, fun b hb => ?_,
    h.panic, fun p hp => h.sleepers p (by simp [hp, LogPc.Waits])⟩
  · obtain ⟨l, hop⟩ := hop
    exact h.committing_false_of_op (logStep_of_step hstep) hop
  · obtain ⟨-, lh, hheld, hroom, hw⟩ := h.commit p _ l hp
    exact ⟨lh, hroom, hheld.nodup, hheld.logged, hw⟩
  · rw [hpins, if_pos]
    exact ((hsplit b).mp hb).resolve_left fun htake => hu ((hun b).mp htake)
  · rw [hpins, if_neg]
    intro hdrop
    rcases hb with hb | hb
    · exact hb ((hsplit b).mpr (Or.inr hdrop))
    · exact List.disjoint_take_drop hnd (Nat.le_refl k) ((hun b).mpr hb) hdrop

end Run

/-- Thread 0 logs two blocks and ends its operation; its `commit()` has issued `k` steps. -/
def commitRun (k : Nat) : List (Fin 2 × LogCall Nat) :=
  [(0, .beginOp), (0, .cont), (1, .beginOp), (0, .logWrite 40 7), (0, .logWrite 41 8), (0, .logWrite 40 9), (0, .endOp),
   (1, .cont), (1, .cont)] ++ List.replicate k (0, .cont)

def commitState (k : Nat) : LogState (Fin 2) Nat := runD (LogState.step 2) (.init blankDisk) (commitRun k)

/-- `commit()` is over, and its writes are those of the blocks 40 and 41, while thread 1 is SLEEPING in
`begin_op()`. -/
theorem group_commit_two : ∃ s, run (LogState.step 2) (.init blankDisk) (commitRun 10) = some s ∧
    s.pc 0 = .commit .finish [41, 40] ∧ s.pc 1 = .beginOp .sleeping ∧ s.committing = true ∧ s.outstanding = 0 ∧
    ∃ lh : LogHeader, (∀ b, b ∈ lh.blocks ↔ b ∈ [40, 41, 40]) ∧ s.writes = commit lh s.cache := by
  have hrun : run (LogState.step 2) (.init blankDisk) (commitRun 10) = some (commitState 10) :=
    run_eq_runD (by decide)
  obtain ⟨hpc, hpc', hcom, hlogged⟩ : (commitState 10).pc 0 = .commit .finish [41, 40] ∧
      (commitState 10).pc 1 = .beginOp .sleeping ∧ (commitState 10).committing = true ∧
      (commitState 10).logged = [40, 41, 40] := by decide
  obtain ⟨hquiet, -, hcommit, -⟩ := group_commit blankDisk _ ⟨_, hrun⟩
  obtain ⟨lh, -, -, hlh, hw⟩ := hcommit 0 _ hpc
  exact ⟨_, hrun, hpc, hpc', hcom, (hquiet hcom).1, lh, fun b => by rw [hlh, hlogged], hw⟩

/-- Three operations, ten blocks each. -/
def fullLogRun : List (Fin 3 × LogCall Unit) :=
  (List.finRange 3).flatMap (fun p => [(p, .beginOp), (p, .cont)]) ++
    (List.finRange 3).flatMap fun p => (List.range 10).map fun i => (p, .logWrite (100 + 10 * p + i) ())

def clearDisk : Disk Unit := ⟨⟨0, fun _ => 0⟩, fun _ => ()⟩

def emptyLog : LogState (Fin 3) Unit := .init clearDisk

/-- Between the installation of a block and the reset of `log.lh.n` the block is in the header but no longer
pinned. When three operations have logged thirty blocks, `commit()` finds no buffer for the first block of the log. -/
theorem unpinned_or_out_of_buffers :
    (∃ s, run (LogState.step 2) (.init blankDisk) (commitRun 6) = some s ∧ 40 ∈ s.lh.blocks ∧ s.pins 40 = 0) ∧
    ∃ s, run (LogState.step 2) emptyLog
        (fullLogRun ++ [(0, .endOp), (1, .endOp), (2, .endOp), (2, .cont), (2, .cont)]) = some s ∧
      s.panic = some .noBuffers ∧ s.writes = [] :=
  ⟨⟨_, run_eq_runD (by decide), by decide, by decide⟩, _, run_eq_runD (by decide), by decide, rfl⟩

end Xv6
