import Mathlib.Data.List.GetD
import Xv6.Lib.Patch
import Xv6.Lib.Run

/-!
# The log on disk: commit, recovery and crashes

The disk is a map from block numbers to contents. `commit()` and `recover_from_log()` are the lists of the
single-block writes they issue, and a crash may fall between any two of them.

* `LogIo` : one such write; `writeLog`, `installTrans`, `commit`, `recoverFromLog` : the calls of `log.c`;
* `LogSys.step` : transactions are committed one after the other, the machine may crash and reboot;
* `Disk.view` : the home blocks as a completed recovery would leave them;
* `recovery_atomic` : whenever the log is up again, the home blocks are those after exactly the transactions
  whose header reached the disk.
-/

namespace Xv6
open Automaton Store Function

/-- `MAXOPBLOCKS`. -/
def maxopblocks : Nat := 10

/-- `LOGBLOCKS`. -/
def logblocks : Nat := maxopblocks * 3

/-- `NBUF`, the number of buffers of the cache. -/
def nbuf : Nat := maxopblocks * 3

/-- `struct logheader`. -/
structure LogHeader where
  n : Nat
  block : Nat → Nat

/-- The disk: the block `log.start` read as a `struct logheader`, and the contents of the others. -/
structure Disk (α : Type*) where
  head : LogHeader
  blk : Nat → α

/-- A block outside the log area, the header block and `LOGBLOCKS` blocks from `start` on. -/
def Home (start b : Nat) : Prop := ¬ (start ≤ b ∧ b ≤ start + logblocks)

instance (start b : Nat) : Decidable (Home start b) := inferInstanceAs (Decidable (¬ _))

variable {α : Type*}

/-! ## The writes of `log.c` -/

/-- One block write: `write_log()` copies the contents `v` of a home block to log block `tail`, `write_head()`
writes the in-memory header, `install_trans()` copies log block `tail` to the home block `b`. -/
inductive LogIo (α : Type*) where
  | log (tail : Nat) (v : α)
  | head (lh : LogHeader)
  | install (tail b : Nat)

def LogIo.write (start : Nat) (d : Disk α) : LogIo α → Disk α
  | .log tail v => { d with blk := update d.blk (start + tail + 1) v }
  -- only `n` and the first `n` entries are stored into the header block
  | .head lh => { d with head := ⟨lh.n, fun i => if i < lh.n then lh.block i else d.head.block i⟩ }
  | .install tail b => { d with blk := update d.blk b (d.blk (start + tail + 1)) }

/-- The disk after these writes. -/
def Disk.after (start : Nat) (d : Disk α) (ws : List (LogIo α)) : Disk α := ws.foldl (LogIo.write start) d

/-- `write_log()`; `cache` is what the buffer cache holds. -/
def writeLog (lh : LogHeader) (cache : Nat → α) : List (LogIo α) :=
  (List.range lh.n).map fun tail => .log tail (cache (lh.block tail))

/-- `install_trans()`. -/
def installTrans (lh : LogHeader) : List (LogIo α) :=
  (List.range lh.n).map fun tail => .install tail (lh.block tail)

/-- `log.lh.n = 0; write_head()`. -/
def LogHeader.clear (lh : LogHeader) : LogHeader := { lh with n := 0 }

/-- `commit()`. -/
def commit (lh : LogHeader) (cache : Nat → α) : List (LogIo α) :=
  if lh.n > 0 then writeLog lh cache ++ .head lh :: (installTrans lh ++ [.head lh.clear]) else []

/-- `recover_from_log()`: `read_head()` takes the header from the disk. -/
def recoverFromLog (d : Disk α) : List (LogIo α) := installTrans d.head ++ [.head d.head.clear]

/-! ## Transactions, crashes and reboots -/

/-- The blocks of one transaction in log order and the contents the buffer cache holds for them. -/
structure Txn (start : Nat) (α : Type*) where
  blocks : List Nat
  contents : Nat → α
  fits : blocks.length ≤ logblocks
  home : ∀ b ∈ blocks, Home start b

variable {start : Nat}

/-- `log.lh` when the transaction is committed. -/
def Txn.lh (t : Txn start α) : LogHeader := ⟨t.blocks.length, fun i => t.blocks.getD i 0⟩

/-- What a transaction is for: its blocks get their new contents. -/
def Txn.apply (f : Nat → α) (t : Txn start α) : Nat → α := fun b => if b ∈ t.blocks then t.contents b else f b

/-- `todo` is the rest of the writes of the call that is running. -/
inductive Mode (start : Nat) (α : Type*) where
  | up
  | commit (t : Txn start α) (todo : List (LogIo α))
  | down
  | recover (todo : List (LogIo α))

structure LogSys (start : Nat) (α : Type*) where
  disk : Disk α
  mode : Mode start α
  /-- The transactions whose header, with `n > 0`, has reached the disk, in order. -/
  committed : List (Txn start α)

inductive LogEvent (start : Nat) (α : Type*) where
  | commit (t : Txn start α)
  | io
  | crash
  | reboot

def LogIo.isCommit : LogIo α → Bool
  | .head lh => lh.n > 0
  | _ => false

def Mode.next (m : List (LogIo α) → Mode start α) : List (LogIo α) → Mode start α
  | [] => .up
  | io :: todo => m (io :: todo)

def LogSys.step (s : LogSys start α) : LogEvent start α → Option (LogSys start α)
  | .commit t =>
    match s.mode with
    | .up => some { s with mode := Mode.next (.commit t) (Xv6.commit t.lh t.contents) }
    | _ => none
  | .io =>
    match s.mode with
    | .commit t (io :: todo) =>
      some { disk := io.write start s.disk
             mode := Mode.next (.commit t) todo
             committed := if io.isCommit then s.committed ++ [t] else s.committed }
    | .recover (io :: todo) => some { s with disk := io.write start s.disk, mode := Mode.next .recover todo }
    | _ => none
  | .crash => some { s with mode := .down }
  | .reboot =>
    match s.mode with
    | .down => some { s with mode := Mode.next .recover (recoverFromLog s.disk) }
    | _ => none

/-- A disk that `initlog()` finds clean. -/
def LogSys.init (d : Disk α) : LogSys start α := ⟨d, .up, []⟩

/-! ## What recovery would leave -/

/-- The copies that `install_trans()` would make of the log as it is on disk. -/
def Disk.entries (start : Nat) (d : Disk α) : List (Nat × α) :=
  (List.range d.head.n).map fun i => (d.head.block i, d.blk (start + i + 1))

def Disk.view (start : Nat) (d : Disk α) : Nat → α := patch d.blk (d.entries start)

theorem Home.ne_log {b i : Nat} (h : Home start b) (hi : i < logblocks) : b ≠ start + i + 1 := by
  unfold Home at h
  omega

theorem drop_map_range {β : Type*} (f : Nat → β) {k n : Nat} (h : k < n) :
    ((List.range n).map f).drop k = f k :: ((List.range n).map f).drop (k + 1) := by
  rw [List.drop_eq_getElem_cons (by simpa using h)]
  simp

theorem take_map_range {β : Type*} (f : Nat → β) {k n : Nat} (h : k < n) :
    ((List.range n).map f).take (k + 1) = ((List.range n).map f).take k ++ [f k] := by
  rw [List.take_add_one]
  simp [h]

/-- The header on disk is that of a transaction of home blocks. -/
structure Disk.WF (start : Nat) (d : Disk α) : Prop where
  fits : d.head.n ≤ logblocks
  home : ∀ i < d.head.n, Home start (d.head.block i)

theorem view_of_clear {d : Disk α} (h : d.head.n = 0) : d.view start = d.blk := by
  simp [Disk.view, Disk.entries, h]

/-! ## One write -/

/-- `write_log()` is about to write log block `k` of `lh`. -/
structure Logging (start : Nat) (lh : LogHeader) (cache : Nat → α) (d : Disk α) (k : Nat)
    (todo : List (LogIo α)) : Prop where
  clear : d.head.n = 0
  le : k ≤ lh.n
  done : ∀ i < k, d.blk (start + i + 1) = cache (lh.block i)
  todo : todo = (writeLog lh cache).drop k ++ .head lh :: (installTrans lh ++ [.head lh.clear])

/-- `install_trans()` is about to install log block `k` of the header that is on disk. -/
structure Installing (start : Nat) (lh : LogHeader) (d : Disk α) (k : Nat) (todo : List (LogIo α)) : Prop where
  n : lh.n = d.head.n
  block : ∀ i < lh.n, lh.block i = d.head.block i
  le : k ≤ lh.n
  done : patch d.blk ((d.entries start).take k) = d.blk
  todo : todo = (installTrans lh).drop k ++ [.head lh.clear]

section Write
variable {d : Disk α} {lh : LogHeader} {cache : Nat → α} {k : Nat} {io : LogIo α} {todo : List (LogIo α)}

theorem Logging.log (h : Logging start lh cache d k todo) (hk : k < lh.n) (hfit : lh.n ≤ logblocks) :
    ∃ rest, todo = .log k (cache (lh.block k)) :: rest ∧
      Logging start lh cache (LogIo.write start d (.log k (cache (lh.block k)))) (k + 1) rest ∧
      ∀ b, Home start b → (LogIo.write start d (.log k (cache (lh.block k)))).blk b = d.blk b := by
  refine ⟨_, by rw [h.todo, writeLog, drop_map_range _ hk]; rfl, ⟨h.clear, hk, fun i hi => ?_, rfl⟩, fun b hb => ?_⟩
  · by_cases hik : i = k
    · rw [hik]
      simp [LogIo.write]
    · simp only [LogIo.write]
      rw [update_of_ne (by omega), h.done i (by omega)]
  · exact update_of_ne (hb.ne_log (by omega)) _ _

/-- The header write installs nothing, but makes the transaction part of what recovery would leave. -/
theorem Logging.head (h : Logging start lh cache d lh.n todo) :
    todo = .head lh :: (installTrans lh ++ [.head lh.clear]) ∧
      Installing start lh (LogIo.write start d (.head lh)) 0 (installTrans lh ++ [.head lh.clear]) ∧
      (LogIo.write start d (.head lh)).entries start =
        (List.range lh.n).map fun i => (lh.block i, cache (lh.block i)) := by
  have htodo : (writeLog lh cache).drop lh.n = [] := List.drop_of_length_le (by simp [writeLog])
  refine ⟨by rw [h.todo, htodo]; rfl, ⟨rfl, fun i hi => by simp [LogIo.write, hi], Nat.zero_le _, rfl, rfl⟩, ?_⟩
  refine List.map_congr_left fun i hi => ?_
  have hi : i < lh.n := List.mem_range.mp hi
  simp [LogIo.write, hi, h.done i hi]

theorem entries_install (hwf : d.WF start) {b : Nat} {v : α} (hb : Home start b) :
    Disk.entries start { d with blk := update d.blk b v } = d.entries start := by
  refine List.map_congr_left fun i hi => ?_
  have hi : i < d.head.n := List.mem_range.mp hi
  have hne := hb.ne_log (Nat.lt_of_lt_of_le hi hwf.fits)
  simp only [update_of_ne hne.symm]

theorem Installing.install (h : Installing start lh d k todo) (hwf : d.WF start) (hk : k < lh.n) :
    ∃ rest, todo = .install k (lh.block k) :: rest ∧
      Installing start lh (LogIo.write start d (.install k (lh.block k))) (k + 1) rest ∧
      (LogIo.write start d (.install k (lh.block k))).view start = d.view start := by
  have hk' : k < d.head.n := h.n ▸ hk
  have hb : lh.block k = d.head.block k := h.block k hk
  have hent : (LogIo.write start d (.install k (lh.block k))).entries start = d.entries start :=
    entries_install hwf (hb ▸ hwf.home k hk')
  have htake : (d.entries start).take (k + 1) =
      (d.entries start).take k ++ [(lh.block k, d.blk (start + k + 1))] := by
    rw [Disk.entries, take_map_range _ hk', hb]
  refine ⟨_, by rw [h.todo, installTrans, drop_map_range _ hk]; rfl, ⟨h.n, h.block, hk, ?_, rfl⟩, ?_⟩
  · -- a block that was installed before is installed once more at most
    rw [hent, htake, patch_concat]
    funext b
    by_cases hbk : b = lh.block k
    · rw [hbk, update_self]
      simp [LogIo.write]
    · rw [update_of_ne hbk]
      have hsame : (LogIo.write start d (.install k (lh.block k))).blk b = d.blk b := update_of_ne hbk _ _
      rw [patch_congr (g := d.blk) fun _ => hsame, h.done, hsame]
  · rw [Disk.view, hent]
    refine patch_update (u := d.blk (start + k + 1)) ?_
    exact List.mem_map.mpr ⟨k, List.mem_range.mpr hk', by rw [hb]⟩

theorem Installing.clear (h : Installing start lh d lh.n todo) :
    todo = [.head lh.clear] ∧ (LogIo.write start d (.head lh.clear)).head.n = 0 ∧
      (LogIo.write start d (.head lh.clear)).blk = d.view start := by
  have htodo : (installTrans lh).drop lh.n = ([] : List (LogIo α)) :=
    List.drop_of_length_le (by simp [installTrans])
  refine ⟨by rw [h.todo, htodo]; rfl, rfl, ?_⟩
  have hall : (d.entries start).take lh.n = d.entries start :=
    List.take_of_length_le (by simp [Disk.entries, h.n])
  rw [Disk.view, ← hall, h.done]
  rfl

theorem Installing.next (h : Installing start lh d k (io :: todo)) (hwf : d.WF start) :
    io.isCommit = false ∧ (io.write start d).WF start ∧ (io.write start d).view start = d.view start ∧
      (todo = [] ∧ (io.write start d).head.n = 0 ∨
        todo ≠ [] ∧ Installing start lh (io.write start d) (k + 1) todo) := by
  rcases Nat.lt_or_ge k lh.n with hk | hk
  · obtain ⟨rest, heq, hnext, hview⟩ := h.install hwf hk
    obtain ⟨rfl, rfl⟩ := List.cons.inj heq
    refine ⟨rfl, ⟨hwf.fits, hwf.home⟩, hview, Or.inr ⟨?_, hnext⟩⟩
    rw [hnext.todo]
    simp
  · obtain rfl := Nat.le_antisymm h.le hk
    obtain ⟨heq, hn, hblk⟩ := h.clear
    obtain ⟨rfl, rfl⟩ := List.cons.inj heq
    refine ⟨rfl, ⟨by simp [hn], fun i hi => absurd hi (by simp [hn])⟩, ?_, Or.inl ⟨rfl, hn⟩⟩
    rw [view_of_clear hn, hblk]

theorem Logging.next {t : Txn start α} (h : Logging start t.lh t.contents d k (io :: todo)) (hpos : 0 < t.lh.n) :
    todo ≠ [] ∧ (io.write start d).WF start ∧
      (io.isCommit = false ∧ Logging start t.lh t.contents (io.write start d) (k + 1) todo ∧
          (∀ b, Home start b → (io.write start d).view start b = d.view start b) ∨
        io.isCommit = true ∧ Installing start t.lh (io.write start d) 0 todo ∧
          (io.write start d).view start = t.apply (d.view start)) := by
  rw [view_of_clear h.clear]
  rcases Nat.lt_or_ge k t.lh.n with hk | hk
  · obtain ⟨rest, heq, hnext, hsame⟩ := h.log hk t.fits
    obtain ⟨rfl, rfl⟩ := List.cons.inj heq
    refine ⟨by rw [hnext.todo]; simp, ⟨by simp [hnext.clear], fun i hi => absurd hi (by simp [hnext.clear])⟩,
      Or.inl ⟨rfl, hnext, fun b hb => ?_⟩⟩
    rw [view_of_clear hnext.clear, hsame b hb]
  · obtain rfl := Nat.le_antisymm h.le hk
    obtain ⟨heq, hnext, hent⟩ := h.head
    obtain ⟨rfl, rfl⟩ := List.cons.inj heq
    refine ⟨by simp, ⟨t.fits, fun i hi => ?_⟩, Or.inr ⟨by simpa [LogIo.isCommit] using hpos, hnext, ?_⟩⟩
    · have hi : i < t.blocks.length := hi
      simp only [LogIo.write, Txn.lh, hi, if_true]
      rw [List.getD_eq_getElem _ _ hi]
      exact t.home _ (List.getElem_mem hi)
    · -- log block `i` holds the contents of home block `block[i]`
      funext b
      rw [Disk.view, hent, Txn.apply]
      split
      · rename_i hb
        obtain ⟨i, hi, rfl⟩ := List.mem_iff_getElem.mp hb
        refine patch_eq_of_agree (c := t.contents) (v := t.contents t.blocks[i]) ?_ ?_
        · intro w hw
          obtain ⟨j, -, rfl⟩ := List.mem_map.mp hw
          rfl
        · refine List.mem_map.mpr ⟨i, List.mem_range.mpr hi, ?_⟩
          simp only [Txn.lh, List.getD_eq_getElem _ _ hi]
      · rename_i hb
        refine patch_of_not_mem fun v hv => hb ?_
        obtain ⟨j, hj, heq⟩ := List.mem_map.mp hv
        have hj : j < t.blocks.length := List.mem_range.mp hj
        have heq := congrArg Prod.fst heq
        simp only [Txn.lh, List.getD_eq_getElem _ _ hj] at heq
        exact heq ▸ List.getElem_mem hj

end Write

/-! ## Whole runs -/

def ModeOk (d : Disk α) : Mode start α → Prop
  | .up => d.head.n = 0
  | .commit t todo =>
    0 < t.lh.n ∧ ((∃ k, Logging start t.lh t.contents d k todo) ∨ ∃ k, Installing start t.lh d k todo)
  | .down => True
  | .recover todo => ∃ lh k, Installing start lh d k todo

structure LogSys.Ok (d : Disk α) (s : LogSys start α) : Prop where
  wf : s.disk.WF start
  mode : ModeOk s.disk s.mode
  view : ∀ b, Home start b → s.disk.view start b = s.committed.foldl Txn.apply d.blk b

theorem Mode.next_of_ne {m : List (LogIo α) → Mode start α} {todo : List (LogIo α)} (h : todo ≠ []) :
    Mode.next m todo = m todo := by
  cases todo with
  | nil => exact absurd rfl h
  | cons io todo => rfl

theorem Txn.apply_congr {f g : Nat → α} {t : Txn start α} {b : Nat} (h : f b = g b) : t.apply f b = t.apply g b := by
  simp only [Txn.apply, h]

theorem LogSys.Ok.step {d : Disk α} {s t : LogSys start α} {e : LogEvent start α} (h : s.Ok d)
    (hs : s.step e = some t) : t.Ok d := by
  cases e with
  | commit txn =>
    simp only [LogSys.step] at hs
    split at hs
    · rename_i hm
      cases hs
      refine ⟨h.wf, ?_, h.view⟩
      have hclear : s.disk.head.n = 0 := by simpa [ModeOk, hm] using h.mode
      by_cases hn : 0 < txn.lh.n
      · simp only [Xv6.commit, if_pos hn]
        rw [Mode.next_of_ne (by simp)]
        exact ⟨hn, Or.inl ⟨0, hclear, Nat.zero_le _, fun i hi => absurd hi (Nat.not_lt_zero i), rfl⟩⟩
      · simpa [Xv6.commit, if_neg hn, Mode.next, ModeOk] using hclear
    · cases hs
  | io =>
    simp only [LogSys.step] at hs
    split at hs
    · rename_i txn io todo hm
      cases hs
      have hmode := h.mode
      rw [hm] at hmode
      obtain ⟨hpos, ⟨k, hl⟩ | ⟨k, hl⟩⟩ := hmode
      · obtain ⟨hne, hwf, ⟨hio, hnext, hview⟩ | ⟨hio, hnext, hview⟩⟩ := hl.next hpos
        · refine ⟨hwf, ?_, fun b hb => ?_⟩
          · rw [Mode.next_of_ne hne]
            exact ⟨hpos, Or.inl ⟨k + 1, hnext⟩⟩
          · simp [hio, hview b hb, h.view b hb]
        · refine ⟨hwf, ?_, fun b hb => ?_⟩
          · rw [Mode.next_of_ne hne]
            exact ⟨hpos, Or.inr ⟨0, hnext⟩⟩
          · simp only [hio, if_true, List.foldl_append, List.foldl_cons, List.foldl_nil]
            rw [hview]
            exact Txn.apply_congr (h.view b hb)
      · obtain ⟨hio, hwf, hview, ⟨rfl, hn⟩ | ⟨hne, hnext⟩⟩ := hl.next h.wf
        · exact ⟨hwf, hn, fun b hb => by simpa [hio, hview] using h.view b hb⟩
        · refine ⟨hwf, ?_, fun b hb => by simpa [hio, hview] using h.view b hb⟩
          rw [Mode.next_of_ne hne]
          exact ⟨hpos, Or.inr ⟨k + 1, hnext⟩⟩
    · rename_i io todo hm
      cases hs
      have hmode := h.mode
      rw [hm] at hmode
      obtain ⟨lh, k, hl⟩ := hmode
      obtain ⟨-, hwf, hview, ⟨rfl, hn⟩ | ⟨hne, hnext⟩⟩ := hl.next h.wf
      · exact ⟨hwf, hn, fun b hb => by rw [hview, h.view b hb]⟩
      · refine ⟨hwf, ?_, fun b hb => by rw [hview, h.view b hb]⟩
        rw [Mode.next_of_ne hne]
        exact ⟨lh, k + 1, hnext⟩
    · cases hs
  | crash =>
    cases hs
    exact ⟨h.wf, trivial, h.view⟩
  | reboot =>
    simp only [LogSys.step] at hs
    split at hs
    · cases hs
      refine ⟨h.wf, ?_, h.view⟩
      rw [Mode.next_of_ne (by simp [recoverFromLog])]
      exact ⟨s.disk.head, 0, rfl, fun _ _ => rfl, Nat.zero_le _, rfl, rfl⟩
    · cases hs

theorem ok_of_reachable {d : Disk α} {s : LogSys start α} (hd : d.head.n = 0)
    (h : Reachable LogSys.step (.init d) s) : s.Ok d := by
  refine h.invariant ⟨⟨by simp [LogSys.init, hd], fun i hi => absurd hi (by simp [LogSys.init, hd])⟩, hd, ?_⟩
    fun _ _ _ _ hi hs => hi.step hs
  intro b _
  rw [LogSys.init, view_of_clear hd]
  rfl

/-- Recovery is one write per log block and the write that clears the header, so it completes when left alone. -/
theorem recover_completes {s : LogSys start α} {todo : List (LogIo α)} (h : s.mode = Mode.next .recover todo) :
    ∃ t, run LogSys.step s (List.replicate todo.length .io) = some t ∧ t.mode = .up ∧ t.committed = s.committed := by
  induction todo generalizing s with
  | nil => exact ⟨s, rfl, h, rfl⟩
  | cons io todo ih =>
    have hstep : s.step .io = some { s with disk := io.write start s.disk, mode := Mode.next .recover todo } := by
      simp only [LogSys.step, h, Mode.next]
    obtain ⟨t, ht, hup, hc⟩ := @ih { s with disk := io.write start s.disk, mode := Mode.next .recover todo } rfl
    exact ⟨t, run_cons_eq_some.mpr ⟨_, hstep, ht⟩, hup, hc⟩

/-- **Crash atomicity and durability.** Whatever transactions were committed, wherever the machine crashed
during their writes or those of earlier recoveries, once the log is up the home blocks are those after exactly
the transactions whose header reached the disk, and the header on disk is clear. A recovery that is not
interrupted gets there. -/
theorem recovery_atomic (d : Disk α) (hd : d.head.n = 0) (s : LogSys start α)
    (h : Reachable LogSys.step (.init d) s) :
    (s.mode = .up → s.disk.head.n = 0 ∧
      ∀ b, Home start b → s.disk.blk b = s.committed.foldl Txn.apply d.blk b) ∧
    (s.mode = .down → ∃ k t, run LogSys.step s (.reboot :: List.replicate k .io) = some t ∧ t.mode = .up ∧
      t.committed = s.committed) := by
  have hok := ok_of_reachable hd h
  constructor
  · intro hup
    have hn : s.disk.head.n = 0 := by simpa [ModeOk, hup] using hok.mode
    refine ⟨hn, fun b hb => ?_⟩
    rw [← hok.view b hb, view_of_clear hn]
  · intro hdown
    have hstep : s.step .reboot = some { s with mode := Mode.next .recover (recoverFromLog s.disk) } := by
      simp only [LogSys.step, hdown]
    obtain ⟨t, ht, hup, hc⟩ := recover_completes
      (s := { s with mode := Mode.next .recover (recoverFromLog s.disk) }) rfl
    exact ⟨_, t, run_cons_eq_some.mpr ⟨_, hstep, ht⟩, hup, hc⟩

/-- A transaction whose header reached the disk, cut in its installation and again in the first recovery; then
one cut before its header was written. -/
def tornRun : List (LogEvent 2 Nat) :=
  [.commit ⟨[40, 41], fun b => b + 1, by decide, by decide⟩, .io, .io, .io, .io, .crash, .reboot, .io, .crash,
   .reboot, .io, .io, .io, .commit ⟨[41, 42], fun b => b + 2, by decide, by decide⟩, .io, .io, .crash,
   .reboot, .io]

def blankDisk : Disk Nat := ⟨⟨0, fun _ => 0⟩, fun _ => 0⟩

theorem recovery_atomic_torn : ∃ s, run LogSys.step (.init blankDisk) tornRun = some s ∧
    s.mode = .up ∧ s.committed.length = 1 ∧ s.disk.head.n = 0 ∧ s.disk.blk 41 = 42 ∧ s.disk.blk 42 = 0 := by
  have hrun : run LogSys.step (.init blankDisk) tornRun = some (runD LogSys.step (.init blankDisk) tornRun) :=
    run_eq_runD (by decide)
  obtain ⟨hatomic, -⟩ := recovery_atomic blankDisk rfl _ ⟨tornRun, hrun⟩
  have hup : (runD LogSys.step (.init blankDisk) tornRun).mode = .up := rfl
  obtain ⟨hn, hblk⟩ := hatomic hup
  refine ⟨_, hrun, hup, rfl, hn, ?_, ?_⟩
  · rw [hblk 41 (by decide)]
    rfl
  · rw [hblk 42 (by decide)]
    rfl

end Xv6
