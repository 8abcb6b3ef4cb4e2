import Xv6.Lib.Weigh
import Xv6.Log.Disk

/-!
# Group commit: `begin_op()`, `log_write()`, `end_op()` and `sys_sync()`

Any number of threads call the log. A section of code under `log.lock` is one step, and so is each block write
of `commit()`, which runs without the lock and reads `log.lh` as it goes; between two steps `log.lock` is free.

* `LogPc` : where a thread is in these calls;
* `LogState.step` : one step of one thread;
* `LogStep` : what a step can do, with its guards.
-/

namespace Xv6
open Automaton Function

/-- A thread waiting on the channel `&log`: it runs, it has called `sleep_prepare()`, it is SLEEPING. -/
inductive Wait where
  | awake
  | prepared
  | sleeping
  deriving DecidableEq

/-- Where `commit()` is; `finish` is the section of `end_op()` after it. -/
inductive CommitPc where
  | test
  | writeLog (tail : Nat)
  | writeHead
  | installTrans (tail : Nat)
  | clear
  | erase
  | finish
  deriving DecidableEq

/-- `logged` are the blocks the thread's operation has logged, each once. -/
inductive LogPc where
  | user
  | beginOp (w : Wait)
  | op (logged : List Nat)
  | commit (k : CommitPc) (logged : List Nat)
  | sync (n : Nat) (w : Wait)
  deriving DecidableEq

inductive LogPanic where
  | tooBig
  | outside
  | committing
  | noBuffers
  deriving DecidableEq

/-- An operation whose `end_op()` has returned: `ncommit` during it, and the blocks it logged. -/
structure EndedOp where
  group : Nat
  blocks : List Nat

structure LogState (T : Type*) (α : Type*) where
  outstanding : Int
  committing : Bool
  ncommit : Nat
  lh : LogHeader
  /-- What `log_write()` and `install_trans()` contribute to the reference count of a block's buffer. -/
  pins : Nat → Int
  cache : Nat → α
  disk : Disk α
  pc : T → LogPc
  panic : Option LogPanic
  /-- The blocks passed to `log_write()` since the last commit was over. -/
  logged : List Nat
  /-- The block writes that the last `commit()` to start has issued so far. -/
  writes : List (LogIo α)
  /-- All block writes so far. -/
  ios : List (LogIo α)
  /-- For each `commit()` that is past writing its header, the blocks in it: none when nothing was logged,
  and then no header is written. -/
  groups : List (List Nat)
  ended : List EndedOp

/-- The entries of the header that count. -/
def LogHeader.blocks (lh : LogHeader) : List Nat := (List.range lh.n).map lh.block

variable {T : Type*} [DecidableEq T] {α : Type*} {start : Nat}

namespace LogState

def init (d : Disk α) : LogState T α where
  outstanding := 0
  committing := false
  ncommit := 0
  lh := ⟨0, fun _ => 0⟩
  pins := fun _ => 0
  cache := d.blk
  disk := d
  pc := fun _ => .user
  panic := none
  logged := []
  writes := []
  ios := []
  groups := []
  ended := []

def setPc (s : LogState T α) (p : T) (c : LogPc) : LogState T α := { s with pc := update s.pc p c }

end LogState

def LogPc.wake : LogPc → LogPc
  | .beginOp _ => .beginOp .awake
  | .sync n _ => .sync n .awake
  | c => c

namespace LogState

/-- `wakeup(&log)`. -/
def wakeup (s : LogState T α) : LogState T α := { s with pc := fun q => (s.pc q).wake }

/-- `log.lh.n + (log.outstanding + 1) * MAXOPBLOCKS > LOGBLOCKS`. -/
def Full (s : LogState T α) : Prop := (s.lh.n : Int) + (s.outstanding + 1) * maxopblocks > logblocks

instance (s : LogState T α) : Decidable s.Full := inferInstanceAs (Decidable (_ > _))

/-- A turn of the loop of `begin_op()`. -/
def beginOp (s : LogState T α) (p : T) : LogState T α :=
  if s.committing then s.setPc p (.beginOp .prepared)
  else if s.Full then s.setPc p (.beginOp .prepared)
  else setPc { s with outstanding := s.outstanding + 1 } p (.op [])

/-- The caller has stored `v` into the buffer of `b`. -/
def logWrite (s : LogState T α) (p : T) (logged : List Nat) (b : Nat) (v : α) : LogState T α :=
  if s.lh.n ≥ logblocks then { s with panic := some .tooBig }
  else if s.outstanding < 1 then { s with panic := some .outside }
  else
    -- the index of the first entry that is `b`, or `n`
    let i := s.lh.blocks.idxOf b
    setPc { s with
      lh := ⟨if i = s.lh.n then s.lh.n + 1 else s.lh.n, update s.lh.block i b⟩
      pins := if i = s.lh.n then update s.pins b (s.pins b + 1) else s.pins
      cache := update s.cache b v
      logged := s.logged ++ [b] } p (.op (if b ∈ logged then logged else b :: logged))

/-- The first section of `end_op()`. -/
def endOp (s : LogState T α) (p : T) (logged : List Nat) : LogState T α :=
  if s.committing then { s with outstanding := s.outstanding - 1, panic := some .committing }
  else if s.outstanding - 1 = 0 then
    setPc { s with outstanding := s.outstanding - 1, committing := true, writes := [] } p (.commit .test logged)
  else
    wakeup (setPc { s with outstanding := s.outstanding - 1, ended := s.ended ++ [⟨s.ncommit, logged⟩] } p .user)

def io (start : Nat) (s : LogState T α) (w : LogIo α) : LogState T α :=
  { s with disk := w.write start s.disk, writes := s.writes ++ [w], ios := s.ios ++ [w] }

def commit (start : Nat) (s : LogState T α) (p : T) (logged : List Nat) : CommitPc → LogState T α
  | .test =>
    if s.lh.n > 0 then s.setPc p (.commit (.writeLog 0) logged)
    else setPc { s with groups := s.groups ++ [[]] } p (.commit .finish logged)
  | .writeLog tail =>
    if tail < s.lh.n then
      -- with all buffers pinned, `bread()` of the log block finds none; blocks of the log are never logged
      if nbuf ≤ s.lh.n then { s with panic := some .noBuffers }
      else (s.io start (.log tail (s.cache (s.lh.block tail)))).setPc p (.commit (.writeLog (tail + 1)) logged)
    else s.setPc p (.commit .writeHead logged)
  | .writeHead =>
    setPc { s.io start (.head s.lh) with groups := s.groups ++ [s.lh.blocks] } p (.commit (.installTrans 0) logged)
  | .installTrans tail =>
    if tail < s.lh.n then
      setPc { s.io start (.install tail (s.lh.block tail)) with
        pins := update s.pins (s.lh.block tail) (s.pins (s.lh.block tail) - 1) } p
        (.commit (.installTrans (tail + 1)) logged)
    else s.setPc p (.commit .clear logged)
  | .clear => setPc { s with lh := s.lh.clear } p (.commit .erase logged)
  | .erase => (s.io start (.head s.lh)).setPc p (.commit .finish logged)
  | .finish =>
    wakeup (setPc { s with
      committing := false
      ncommit := s.ncommit + 1
      logged := []
      ended := s.ended ++ [⟨s.ncommit, logged⟩] } p .user)

/-- The first section of `sys_sync()`, up to its first `release()` or its return. -/
def sync (s : LogState T α) (p : T) : LogState T α :=
  if s.committing ∨ s.outstanding > 0 then s.setPc p (.sync (s.ncommit + 1) .prepared) else s

/-- A turn of the loop of `sys_sync()`. -/
def syncLoop (s : LogState T α) (p : T) (n : Nat) : LogState T α :=
  if s.ncommit < n then s.setPc p (.sync n .prepared) else s.setPc p .user

end LogState

/-- A call by a thread that is not in one, or `cont`: the next step of the call it is in. A process SLEEPING
is made RUNNABLE without a wakeup by `kill()`. -/
inductive LogCall (α : Type*) where
  | beginOp
  | logWrite (b : Nat) (v : α)
  | endOp
  | sync
  | cont
  | kill

def LogState.step (start : Nat) (s : LogState T α) (l : T × LogCall α) : Option (LogState T α) :=
  match s.panic, s.pc l.1, l.2 with
  | none, .user, .beginOp => some (s.setPc l.1 (.beginOp .awake))
  | none, .beginOp .awake, .cont => some (s.beginOp l.1)
  | none, .beginOp .prepared, .cont => some (s.setPc l.1 (.beginOp .sleeping))
  | none, .beginOp .sleeping, .kill => some (s.setPc l.1 (.beginOp .awake))
  | none, .op logged, .logWrite b v => some (s.logWrite l.1 logged b v)
  | none, .op logged, .endOp => some (s.endOp l.1 logged)
  | none, .commit k logged, .cont => some (s.commit start l.1 logged k)
  | none, .user, .sync => some (s.sync l.1)
  | none, .sync n .awake, .cont => some (s.syncLoop l.1 n)
  | none, .sync n .prepared, .cont => some (s.setPc l.1 (.sync n .sleeping))
  | none, .sync n .sleeping, .kill => some (s.setPc l.1 (.sync n .awake))
  | _, _, _ => none

/-! ## Headers -/

namespace LogHeader
variable {lh : LogHeader} {b : Nat}

@[simp] theorem length_blocks (lh : LogHeader) : lh.blocks.length = lh.n := by simp [blocks]

theorem blocks_eq_nil (h : lh.n = 0) : lh.blocks = [] := by simp [blocks, h]

@[simp] theorem blocks_clear (lh : LogHeader) : lh.clear.blocks = [] := blocks_eq_nil rfl

theorem getElem_blocks {i : Nat} (h : i < lh.blocks.length) : lh.blocks[i] = lh.block i := by simp [blocks]

/-- Absorption leaves the header as it is. -/
theorem update_absorb (h : b ∈ lh.blocks) :
    lh.blocks.idxOf b ≠ lh.n ∧ update lh.block (lh.blocks.idxOf b) b = lh.block := by
  have hi : lh.blocks.idxOf b < lh.blocks.length := List.idxOf_lt_length_of_mem h
  refine ⟨by simpa using Nat.ne_of_lt hi, ?_⟩
  have hb : lh.block (lh.blocks.idxOf b) = b := by rw [← getElem_blocks hi, List.getElem_idxOf]
  nth_rewrite 2 [← hb]
  exact update_eq_self _ _

theorem blocks_append (h : b ∉ lh.blocks) : lh.blocks.idxOf b = lh.n ∧
    blocks ⟨lh.n + 1, update lh.block (lh.blocks.idxOf b) b⟩ = lh.blocks ++ [b] := by
  have hi : lh.blocks.idxOf b = lh.n := by rw [List.idxOf_eq_length h, length_blocks]
  refine ⟨hi, ?_⟩
  rw [hi]
  simp only [blocks, List.range_succ, List.map_append, List.map_singleton, update_self]
  congr 1
  refine List.map_congr_left fun i hi => update_of_ne ?_ _ _
  exact Nat.ne_of_lt (List.mem_range.mp hi)

end LogHeader

/-! ## What a step can do -/

/-- The thread is in no operation. -/
def LogPc.Passive : LogPc → Prop
  | .op _ | .commit _ _ => False
  | _ => True

/-- The thread has called `sleep_prepare()` in `begin_op()`. -/
def LogPc.Waits : LogPc → Prop
  | .beginOp w => w ≠ .awake
  | _ => False

/-- A step of thread `p` from `s`. -/
inductive LogStep (start : Nat) (s : LogState T α) (p : T) : LogCall α → LogState T α → Prop
  | move (a : LogCall α) (c : LogPc) (hp : (s.pc p).Passive) (hc : c.Passive)
      (hw : c.Waits → (s.pc p).Waits ∨ s.committing = true ∨ s.Full) : LogStep start s p a (s.setPc p c)
  | stay (hp : (s.pc p).Passive) : LogStep start s p .sync s
  | enter (hp : s.pc p = .beginOp .awake) (hc : s.committing = false) (hf : ¬ s.Full) :
      LogStep start s p .cont (.setPc { s with outstanding := s.outstanding + 1 } p (.op []))
  | tooBig (l : List Nat) (b : Nat) (v : α) (hp : s.pc p = .op l) (hn : s.lh.n ≥ logblocks) :
      LogStep start s p (.logWrite b v) { s with panic := some .tooBig }
  | outside (l : List Nat) (b : Nat) (v : α) (hp : s.pc p = .op l) (ho : s.outstanding < 1) :
      LogStep start s p (.logWrite b v) { s with panic := some .outside }
  | clash (l : List Nat) (hp : s.pc p = .op l) (hc : s.committing = true) :
      LogStep start s p .endOp { s with outstanding := s.outstanding - 1, panic := some .committing }
  | absorb (l : List Nat) (b : Nat) (v : α) (hp : s.pc p = .op l) (hn : s.lh.n < logblocks) (hb : b ∈ s.lh.blocks) :
      LogStep start s p (.logWrite b v) (.setPc
        { s with cache := update s.cache b v, logged := s.logged ++ [b] } p
        (.op (if b ∈ l then l else b :: l)))
  | append (l : List Nat) (b : Nat) (v : α) (lh : LogHeader) (hp : s.pc p = .op l) (hn : s.lh.n < logblocks)
      (hb : b ∉ s.lh.blocks) (hlh : lh.blocks = s.lh.blocks ++ [b]) :
      LogStep start s p (.logWrite b v) (.setPc
        { s with lh, pins := update s.pins b (s.pins b + 1)
                 cache := update s.cache b v, logged := s.logged ++ [b] } p
        (.op (if b ∈ l then l else b :: l)))
  | last (l : List Nat) (hp : s.pc p = .op l) (hc : s.committing = false) (ho : s.outstanding = 1) :
      LogStep start s p .endOp (.setPc { s with outstanding := 0, committing := true, writes :=
      [] } p (.commit .test l))
  | leave (l : List Nat) (hp : s.pc p = .op l) (hc : s.committing = false) (ho : s.outstanding ≠ 1) :
      LogStep start s p .endOp (.wakeup (.setPc
        { s with outstanding := s.outstanding - 1, ended := s.ended ++ [⟨s.ncommit, l⟩] } p .user))
  | commit (k : CommitPc) (l : List Nat) (hp : s.pc p = .commit k l) : LogStep start s p .cont (s.commit start p l k)

theorem logStep_of_step {s t : LogState T α} {p : T} {a : LogCall α} (h : s.step start (p, a) = some t) :
    LogStep start s p a t := by
  simp only [LogState.step] at h
  split at h
  case h_1 _ hp => cases h; exact .move _ _ (by rw [hp]; trivial) trivial fun hw => absurd rfl hw
  case h_2 _ hp =>
    cases h
    unfold LogState.beginOp
    split
    · rename_i hc
      exact .move _ _ (by rw [hp]; trivial) trivial fun _ => Or.inr (Or.inl hc)
    · split
      · rename_i hf
        exact .move _ _ (by rw [hp]; trivial) trivial fun _ => Or.inr (Or.inr hf)
      · rename_i hc hf
        exact .enter hp (by simpa using hc) hf
  case h_3 _ hp =>
    cases h
    exact .move _ _ (by rw [hp]; trivial) trivial fun _ => Or.inl (by simp [hp, LogPc.Waits])
  case h_4 _ hp => cases h; exact .move _ _ (by rw [hp]; trivial) trivial fun hw => absurd rfl hw
  case h_5 l b v _ hp =>
    cases h
    unfold LogState.logWrite
    split
    · rename_i hn
      exact .tooBig l b v hp hn
    · rename_i hn
      split
      · rename_i ho
        exact .outside l b v hp ho
      · by_cases hb : b ∈ s.lh.blocks
        · obtain ⟨hi, hupd⟩ := LogHeader.update_absorb hb
          simp only [hi, if_false, hupd]
          exact .absorb l b v hp (Nat.lt_of_not_le hn) hb
        · obtain ⟨hi, hblocks⟩ := LogHeader.blocks_append hb
          simp only [hi, if_true]
          rw [hi] at hblocks
          exact .append l b v _ hp (Nat.lt_of_not_le hn) hb hblocks
  case h_6 l _ hp =>
    cases h
    unfold LogState.endOp
    split
    · rename_i hc
      exact .clash l hp hc
    · rename_i hc
      split
      · rename_i ho
        rw [ho]
        exact .last l hp (by simpa using hc) (by omega)
      · exact .leave l hp (by simpa using hc) (by omega)
  case h_7 k l _ hp => cases h; exact .commit k l hp
  case h_8 _ hp =>
    cases h
    unfold LogState.sync
    split
    · exact .move _ _ (by rw [hp]; trivial) trivial False.elim
    · exact .stay (by rw [hp]; trivial)
  case h_9 n _ hp =>
    cases h
    unfold LogState.syncLoop
    split
    · exact .move _ _ (by rw [hp]; trivial) trivial False.elim
    · exact .move _ _ (by rw [hp]; trivial) trivial False.elim
  case h_10 n _ hp => cases h; exact .move _ _ (by rw [hp]; trivial) trivial False.elim
  case h_11 n _ hp => cases h; exact .move _ _ (by rw [hp]; trivial) trivial False.elim
  case h_12 => cases h

end Xv6
