import Xv6.Lib.Run
import Mathlib.Algebra.GroupWithZero.Nat
import Mathlib.Data.List.FinRange

/-!
# Pipes

`pipe.c`: any number of processes call `pipewrite()`, `piperead()` and `pipeclose()` on one pipe, and `kkill()` on one
another. Each turn of their loops is a step, and so is each process that `wakeup()` looks at, and each section of
`sleep_prepare()` and `sleep()` under a process lock; a process that is past `acquire(&pi->lock)` holds `pi->lock` until
its `release()`.

* `PipePc` : where a process is in these calls;
* `PipeState.step` : one step of one process; the label says what `copyin()` and `copyout()` of one byte return;
* `PipeStep` : what a step can do, with its guards.
-/

namespace Xv6
open Automaton Function

def pipesize : Nat := 512

/-- The channels `&pi->nread`, on which readers sleep, and `&pi->nwrite`, on which writers do. -/
inductive PipeChan where
  | nread
  | nwrite
  deriving DecidableEq

/-- A call and its local variables; `fresh` says that `pipewrite()` has stored a byte since its last `wakeup()`. -/
inductive PipeCall where
  | write (n i : Nat) (fresh : Bool)
  | read (n : Nat)
  | close (writable : Bool)
  deriving DecidableEq

/-- The channel that the call sleeps on. -/
def PipeCall.chan : PipeCall → PipeChan
  | write _ _ _ => .nwrite
  | read _ => .nread
  | close _ => .nread

inductive PipePc (n : Nat) where
  | user
  /-- At `acquire(&pi->lock)`, at the start or after `sleep()`. -/
  | acquire (k : PipeCall)
  /-- At the head of the first loop. -/
  | loop (k : PipeCall)
  /-- At the head of the second loop of `piperead()`. -/
  | copy (m i : Nat)
  /-- In `wakeup(c)`, with the processes `todo` to look at; after it the call sleeps, or returns `r`. -/
  | wake (c : PipeChan) (todo : List (Fin n)) (k : PipeCall) (r : Option Int)
  | prepare (k : PipeCall)
  | release (k : PipeCall)
  | sleep (k : PipeCall)
  /-- In `sched()`. -/
  | asleep (k : PipeCall)
  deriving DecidableEq

/-- The fields of `struct proc` that count here; `sleeping` stands for `state == SLEEPING`. -/
structure PipeProc where
  chan : Option PipeChan
  sleeping : Bool
  killed : Bool

structure PipeState (n : Nat) where
  data : Nat → UInt8
  nread : BitVec 32
  nwrite : BitVec 32
  readopen : Bool
  writeopen : Bool
  lock : Option (Fin n)
  proc : Fin n → PipeProc
  pc : Fin n → PipePc n
  /-- What the last call of a process returned. -/
  ret : Fin n → Int
  /-- The bytes that writers have stored. -/
  stored : List UInt8
  /-- The bytes that have been copied out to readers. -/
  delivered : List UInt8

inductive PipeAct (n : Nat) where
  | pipewrite (m : Nat)
  | piperead (m : Nat)
  | pipeclose (writable : Bool)
  | kkill (q : Fin n)
  /-- The next step of the call; `ch` is the byte that is copied, if the user address is good. -/
  | go (ch : Option UInt8)

variable {n : Nat} {m : Nat}

namespace PipeState

/-- The pipe after `pipealloc()`. -/
def init (data : Nat → UInt8) : PipeState n where
  data := data
  nread := 0
  nwrite := 0
  readopen := true
  writeopen := true
  lock := none
  proc := fun _ => ⟨none, false, false⟩
  pc := fun _ => .user
  ret := fun _ => 0
  stored := []
  delivered := []

def setPc (s : PipeState n) (p : Fin n) (c : PipePc n) : PipeState n := { s with pc := update s.pc p c }

def setProc (s : PipeState n) (p : Fin n) (x : PipeProc) : PipeState n := { s with proc := update s.proc p x }

/-- `release(&pi->lock); return r;` -/
def leave (s : PipeState n) (p : Fin n) (r : Int) : PipeState n :=
  setPc { s with lock := none, ret := update s.ret p r } p .user

/-- `wakeup(c)` begins. -/
def beginWake (s : PipeState n) (p : Fin n) (c : PipeChan) (k : PipeCall) (r : Option Int) : PipeState n :=
  s.setPc p (.wake c (List.finRange n) k r)

/-- What `wakeup(c)` does to one process. -/
def wakeOne (c : PipeChan) (x : PipeProc) : PipeProc :=
  if x.chan = some c then { x with chan := none, sleeping := false } else x

/-- `pi->data[pi->nwrite++ % PIPESIZE] = ch;` -/
def store (s : PipeState n) (ch : UInt8) : PipeState n :=
  { s with
    data := update s.data (s.nwrite.toNat % pipesize) ch
    nwrite := s.nwrite + 1
    stored := s.stored ++ [ch] }

/-- `pi->data[pi->nread % PIPESIZE]` has been copied out; `pi->nread++;` -/
def fetch (s : PipeState n) : PipeState n :=
  { s with
    nread := s.nread + 1
    delivered := s.delivered ++ [s.data (s.nread.toNat % pipesize)] }

/-- What a call that has copied `i` bytes returns when a copy fails. -/
def shortCount (i : Nat) : Int := if i = 0 then -1 else i

def full (s : PipeState n) : Bool := s.nwrite = s.nread + BitVec.ofNat 32 pipesize

def empty (s : PipeState n) : Bool := s.nread = s.nwrite

/-- A turn of the loop of `pipewrite()`. -/
def pipewrite (s : PipeState n) (p : Fin n) (m i : Nat) (fresh : Bool) (ch : Option UInt8) : PipeState n :=
  if i < m then
    if s.readopen = false ∨ (s.proc p).killed = true then s.leave p (-1)
    else if s.full then s.beginWake p .nread (.write m i false) none
    else
      match ch with
      | none => s.beginWake p .nread (.write m i fresh) (some (shortCount i))
      | some ch => (s.store ch).setPc p (.loop (.write m (i + 1) true))
  else s.beginWake p .nread (.write m i fresh) (some i)

/-- A turn of the first loop of `piperead()`. -/
def piperead (s : PipeState n) (p : Fin n) (m : Nat) : PipeState n :=
  if s.empty ∧ s.writeopen then
    if (s.proc p).killed then s.leave p (-1)
    else s.setPc p (.prepare (.read m))
  else s.setPc p (.copy m 0)

/-- A turn of the second loop of `piperead()`. -/
def pipecopy (s : PipeState n) (p : Fin n) (m i : Nat) (ch : Option UInt8) : PipeState n :=
  if i < m ∧ s.empty = false then
    match ch with
    | none => s.beginWake p .nwrite (.read m) (some (shortCount i))
    | some _ => s.fetch.setPc p (.copy m (i + 1))
  else s.beginWake p .nwrite (.read m) (some i)

/-- `pipeclose()` up to its `wakeup()`. -/
def pipeclose (s : PipeState n) (p : Fin n) : Bool → PipeState n
  | true => beginWake { s with writeopen := false } p .nread (.close true) (some 0)
  | false => beginWake { s with readopen := false } p .nwrite (.close false) (some 0)

/-- `sleep()`: a process whose channel has been woken up does not go to sleep. -/
def sleep (s : PipeState n) (p : Fin n) (k : PipeCall) : PipeState n :=
  if (s.proc p).chan = none then s.setPc p (.acquire k)
  else (s.setProc p { s.proc p with sleeping := true }).setPc p (.asleep k)

def kkill (s : PipeState n) (q : Fin n) : PipeState n :=
  s.setProc q { s.proc q with killed := true, sleeping := false }

def step (s : PipeState n) : Fin n × PipeAct n → Option (PipeState n)
  | (p, .pipewrite m) => if s.pc p = .user then some (s.setPc p (.acquire (.write m 0 false))) else none
  | (p, .piperead m) => if s.pc p = .user then some (s.setPc p (.acquire (.read m))) else none
  | (p, .pipeclose w) => if s.pc p = .user then some (s.setPc p (.acquire (.close w))) else none
  | (p, .kkill q) => if s.pc p = .user then some (s.kkill q) else none
  | (p, .go ch) =>
    match s.pc p with
    | .user => none
    | .acquire k => if s.lock = none then some (setPc { s with lock := some p } p (.loop k)) else none
    | .loop (.write m i fresh) => some (s.pipewrite p m i fresh ch)
    | .loop (.read m) => some (s.piperead p m)
    | .loop (.close w) => some (s.pipeclose p w)
    | .copy m i => some (s.pipecopy p m i ch)
    | .wake c (q :: todo) k r => some ((s.setProc q (wakeOne c (s.proc q))).setPc p (.wake c todo k r))
    | .wake _ [] k none => some (s.setPc p (.prepare k))
    | .wake _ [] _ (some r) => some (s.leave p r)
    | .prepare k => some ((s.setProc p { s.proc p with chan := some k.chan }).setPc p (.release k))
    | .release k => some (setPc { s with lock := none } p (.sleep k))
    | .sleep k => some (s.sleep p k)
    | .asleep k => if (s.proc p).sleeping then none else some (s.setPc p (.acquire k))

end PipeState

/-! ## What a step can do -/

section
variable (s : PipeState n) (p : Fin n)

/-- One constructor for each thing that a step can do. -/
inductive PipeStep : PipeState n → Prop
  | call (k : PipeCall) (hpc : s.pc p = .user) (hk : ∀ m i, k ≠ .write m i true) : PipeStep (s.setPc p (.acquire k))
  | kkill (q : Fin n) : PipeStep (s.kkill q)
  | acquire (k : PipeCall) (hpc : s.pc p = .acquire k) (hfree : s.lock = none) :
      PipeStep (PipeState.setPc { s with lock := some p } p (.loop k))
  | writeGone (m i : Nat) (fresh : Bool) (hpc : s.pc p = .loop (.write m i fresh)) (hi : i < m)
      (hgone : s.readopen = false ∨ (s.proc p).killed = true) : PipeStep (s.leave p (-1))
  | writeFull (m i : Nat) (fresh : Bool) (hpc : s.pc p = .loop (.write m i fresh)) (hopen : s.readopen = true)
      (hfull : s.full = true) : PipeStep (s.beginWake p .nread (.write m i false) none)
  | writeByte (m i : Nat) (fresh : Bool) (ch : UInt8) (hpc : s.pc p = .loop (.write m i fresh))
      (hopen : s.readopen = true) (hroom : s.full = false) :
      PipeStep ((s.store ch).setPc p (.loop (.write m (i + 1) true)))
  | writeEnd (m i : Nat) (fresh : Bool) (r : Int) (hpc : s.pc p = .loop (.write m i fresh)) :
      PipeStep (s.beginWake p .nread (.write m i fresh) (some r))
  | readKilled (m : Nat) (hpc : s.pc p = .loop (.read m)) : PipeStep (s.leave p (-1))
  | readWait (m : Nat) (hpc : s.pc p = .loop (.read m)) (hempty : s.empty = true) (hopen : s.writeopen = true) :
      PipeStep (s.setPc p (.prepare (.read m)))
  | readCopy (m : Nat) (hpc : s.pc p = .loop (.read m)) (hready : s.empty = false ∨ s.writeopen = false) :
      PipeStep (s.setPc p (.copy m 0))
  | copyByte (m i : Nat) (hpc : s.pc p = .copy m i) (hbyte : s.empty = false) :
      PipeStep (s.fetch.setPc p (.copy m (i + 1)))
  | copyEnd (m i : Nat) (r : Int) (hpc : s.pc p = .copy m i)
      (hr : r = 0 → i = 0 ∧ (m = 0 ∨ s.empty = true)) : PipeStep (s.beginWake p .nwrite (.read m) (some r))
  | closeWrite (hpc : s.pc p = .loop (.close true)) :
      PipeStep (PipeState.beginWake { s with writeopen := false } p .nread (.close true) (some 0))
  | closeRead (hpc : s.pc p = .loop (.close false)) :
      PipeStep (PipeState.beginWake { s with readopen := false } p .nwrite (.close false) (some 0))
  | wake (c : PipeChan) (q : Fin n) (todo : List (Fin n)) (k : PipeCall) (r : Option Int)
      (hpc : s.pc p = .wake c (q :: todo) k r) :
      PipeStep ((s.setProc q (PipeState.wakeOne c (s.proc q))).setPc p (.wake c todo k r))
  | wakeSleep (c : PipeChan) (k : PipeCall) (hpc : s.pc p = .wake c [] k none) : PipeStep (s.setPc p (.prepare k))
  | wakeReturn (c : PipeChan) (k : PipeCall) (r : Int) (hpc : s.pc p = .wake c [] k (some r)) : PipeStep (s.leave p r)
  | prepare (k : PipeCall) (hpc : s.pc p = .prepare k) :
      PipeStep ((s.setProc p { s.proc p with chan := some k.chan }).setPc p (.release k))
  | release (k : PipeCall) (hpc : s.pc p = .release k) : PipeStep (PipeState.setPc { s with lock := none } p (.sleep k))
  | sleepNot (k : PipeCall) (hpc : s.pc p = .sleep k) : PipeStep (s.setPc p (.acquire k))
  | sleep (k : PipeCall) (hpc : s.pc p = .sleep k) :
      PipeStep ((s.setProc p { s.proc p with sleeping := true }).setPc p (.asleep k))
  | woken (k : PipeCall) (hpc : s.pc p = .asleep k) (hawake : (s.proc p).sleeping = false) :
      PipeStep (s.setPc p (.acquire k))

end

variable {s t : PipeState n} {p : Fin n}

theorem shortCount_ne_zero (i : Nat) : PipeState.shortCount i ≠ 0 := by
  rw [PipeState.shortCount]
  split
  · decide
  · omega

theorem pipewrite_step {i : Nat} {fresh : Bool} (ch : Option UInt8) (hpc : s.pc p = .loop (.write m i fresh)) :
    PipeStep s p (s.pipewrite p m i fresh ch) := by
  unfold PipeState.pipewrite
  by_cases hi : i < m
  · rw [if_pos hi]
    by_cases hgone : s.readopen = false ∨ (s.proc p).killed = true
    · rw [if_pos hgone]
      exact .writeGone m i fresh hpc hi hgone
    · rw [if_neg hgone]
      have hopen : s.readopen = true := Bool.eq_true_of_not_eq_false fun hc => hgone (.inl hc)
      by_cases hfull : s.full = true
      · rw [if_pos hfull]
        exact .writeFull m i fresh hpc hopen hfull
      · rw [if_neg hfull]
        cases ch with
        | none => exact .writeEnd m i fresh _ hpc
        | some ch => exact .writeByte m i fresh ch hpc hopen (Bool.eq_false_iff.mpr hfull)
  · rw [if_neg hi]
    exact .writeEnd m i fresh _ hpc

theorem piperead_step (hpc : s.pc p = .loop (.read m)) : PipeStep s p (s.piperead p m) := by
  rw [PipeState.piperead]
  by_cases hwait : s.empty ∧ s.writeopen
  · rw [if_pos hwait]
    by_cases hkilled : (s.proc p).killed = true
    · rw [if_pos hkilled]
      exact .readKilled m hpc
    · rw [if_neg hkilled]
      exact .readWait m hpc hwait.1 hwait.2
  · rw [if_neg hwait]
    refine .readCopy m hpc ?_
    rw [not_and_or, Bool.not_eq_true, Bool.not_eq_true] at hwait
    exact hwait

theorem pipecopy_step {i : Nat} (ch : Option UInt8) (hpc : s.pc p = .copy m i) :
    PipeStep s p (s.pipecopy p m i ch) := by
  unfold PipeState.pipecopy
  by_cases hbyte : i < m ∧ s.empty = false
  · rw [if_pos hbyte]
    cases ch with
    | none => exact .copyEnd m i _ hpc fun hc => absurd hc (shortCount_ne_zero i)
    | some ch => exact .copyByte m i hpc hbyte.2
  · rw [if_neg hbyte]
    refine .copyEnd m i _ hpc fun hc => ?_
    have hi : i = 0 := Int.natCast_eq_zero.mp hc
    refine ⟨hi, ?_⟩
    rw [not_and_or, Bool.not_eq_false, hi] at hbyte
    rcases hbyte with hm | he
    · exact .inl (by omega)
    · exact .inr he

theorem pipeStep_of_step {a : PipeAct n} (h : s.step (p, a) = some t) : PipeStep s p t := by
  cases a with
  | pipewrite m =>
    obtain ⟨hpc, ht⟩ := Option.ite_none_right_eq_some.mp h
    obtain rfl := Option.some.inj ht
    exact .call _ hpc fun _ _ hc => by cases hc
  | piperead m =>
    obtain ⟨hpc, ht⟩ := Option.ite_none_right_eq_some.mp h
    obtain rfl := Option.some.inj ht
    exact .call _ hpc fun _ _ hc => by cases hc
  | pipeclose w =>
    obtain ⟨hpc, ht⟩ := Option.ite_none_right_eq_some.mp h
    obtain rfl := Option.some.inj ht
    exact .call _ hpc fun _ _ hc => by cases hc
  | kkill q =>
    obtain ⟨-, ht⟩ := Option.ite_none_right_eq_some.mp h
    obtain rfl := Option.some.inj ht
    exact .kkill q
  | go ch =>
    cases hpc : s.pc p with
    | user =>
      simp only [PipeState.step, hpc] at h
      cases h
    | acquire k =>
      simp only [PipeState.step, hpc] at h
      obtain ⟨hfree, ht⟩ := Option.ite_none_right_eq_some.mp h
      obtain rfl := Option.some.inj ht
      exact .acquire k hpc hfree
    | loop k =>
      cases k with
      | write m i fresh =>
        simp only [PipeState.step, hpc] at h
        exact Option.some.inj h ▸ pipewrite_step ch hpc
      | read m =>
        simp only [PipeState.step, hpc] at h
        exact Option.some.inj h ▸ piperead_step hpc
      | close w =>
        simp only [PipeState.step, hpc] at h
        obtain rfl := Option.some.inj h
        cases w with
        | true => exact .closeWrite hpc
        | false => exact .closeRead hpc
    | copy m i =>
      simp only [PipeState.step, hpc] at h
      exact Option.some.inj h ▸ pipecopy_step ch hpc
    | wake c todo k r =>
      cases todo with
      | cons q todo =>
        simp only [PipeState.step, hpc] at h
        exact Option.some.inj h ▸ .wake c q todo k r hpc
      | nil =>
        cases r with
        | none =>
          simp only [PipeState.step, hpc] at h
          exact Option.some.inj h ▸ .wakeSleep c k hpc
        | some r =>
          simp only [PipeState.step, hpc] at h
          exact Option.some.inj h ▸ .wakeReturn c k r hpc
    | prepare k =>
      simp only [PipeState.step, hpc] at h
      exact Option.some.inj h ▸ .prepare k hpc
    | release k =>
      simp only [PipeState.step, hpc] at h
      exact Option.some.inj h ▸ .release k hpc
    | sleep k =>
      simp only [PipeState.step, hpc, PipeState.sleep] at h
      obtain rfl := Option.some.inj h
      by_cases hc : (s.proc p).chan = none
      · rw [if_pos hc]
        exact .sleepNot k hpc
      · rw [if_neg hc]
        exact .sleep k hpc
    | asleep k =>
      simp only [PipeState.step, hpc] at h
      by_cases hs : (s.proc p).sleeping = true
      · rw [if_pos hs] at h
        cases h
      · rw [if_neg hs] at h
        exact Option.some.inj h ▸ .woken k hpc (Bool.eq_false_iff.mpr hs)

end Xv6
