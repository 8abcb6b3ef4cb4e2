import Xv6.Lib.Run

/-!
# The console

`console.c`: the interrupt handler `consoleintr()` and any number of processes in `consoleread()`, on the ring `cons`.
The handler runs with `cons.lock` from its first line to its last and is one step; each turn of the loop of
`consoleread()` is one, with the lock held. A process that waits in `sleep()` stands at `acquire()` and may go on at any
time: the wait itself is that of the wait loops under `Sleep`, and nothing here depends on when it ends.

* `Console.killLine`, `Console.consoleintr` : erase, kill and store;
* `Console.consoleread` : a turn of the loop of a reader;
* `Console.step` : one step; the label says what `killed()` and `either_copyout()` return.
-/

namespace Xv6
open Automaton Function

def inputBufSize : Nat := 128

/-- `C('D')`: end of file. -/
def ctrlD : UInt8 := 4

/-- `C('H')`: backspace. -/
def ctrlH : UInt8 := 8

/-- `C('P')`: print the process list. -/
def ctrlP : UInt8 := 16

/-- `C('U')`: kill line. -/
def ctrlU : UInt8 := 21

/-- The delete key. -/
def del : UInt8 := 127

def newline : UInt8 := 10

def carriageReturn : UInt8 := 13

/-- A `consoleread()` with `m` bytes to go of `target`. -/
inductive ConsPc where
  | user
  | acquire (m target : Nat)
  | loop (m target : Nat)
  deriving DecidableEq

structure Console (n : Nat) where
  buf : Nat → UInt8
  r : BitVec 32
  w : BitVec 32
  e : BitVec 32
  lock : Option (Fin n)
  pc : Fin n → ConsPc
  /-- What the last `consoleread()` of a process returned. -/
  ret : Fin n → Int
  /-- The bytes that readers have received, and the `^D` that they have consumed. -/
  received : List UInt8

inductive ConsAct (n : Nat) where
  | consoleintr (c : UInt8)
  | consoleread (p : Fin n) (m : Nat)
  /-- The next step of a reader, with what `killed()` and `either_copyout()` say. -/
  | go (p : Fin n) (killed copied : Bool)

variable {n : Nat}

namespace Console

def init (buf : Nat → UInt8) : Console n where
  buf := buf
  r := 0
  w := 0
  e := 0
  lock := none
  pc := fun _ => .user
  ret := fun _ => 0
  received := []

def setPc (s : Console n) (p : Fin n) (c : ConsPc) : Console n := { s with pc := update s.pc p c }

/-- `release(&cons.lock); return x;` -/
def leave (s : Console n) (p : Fin n) (x : Int) : Console n :=
  setPc { s with lock := none, ret := update s.ret p x } p .user

/-- The loop of `^U`; it makes at most `cons.e - cons.w` turns. -/
def killLine (buf : Nat → UInt8) (w : BitVec 32) : Nat → BitVec 32 → BitVec 32
  | 0, e => e
  | k + 1, e =>
    if e ≠ w ∧ buf ((e - 1).toNat % inputBufSize) ≠ newline then killLine buf w k (e - 1) else e

/-- The `default` case of `consoleintr()`. -/
def storeChar (s : Console n) (c : UInt8) : Console n :=
  if c ≠ 0 ∧ (s.e - s.r).toNat < inputBufSize then
    let c := if c = carriageReturn then newline else c
    let buf := update s.buf (s.e.toNat % inputBufSize) c
    let e := s.e + 1
    if c = newline ∨ c = ctrlD ∨ (e - s.r).toNat = inputBufSize then { s with buf := buf, e := e, w := e }
    else { s with buf := buf, e := e }
  else s

def consoleintr (s : Console n) (c : UInt8) : Console n :=
  if c = ctrlP then s
  else if c = ctrlU then { s with e := killLine s.buf s.w (s.e - s.w).toNat s.e }
  else if c = ctrlH ∨ c = del then
    if s.e ≠ s.w then { s with e := s.e - 1 } else s
  else s.storeChar c

/-- The byte at `cons.r` is consumed. -/
def consume (s : Console n) (c : UInt8) : Console n := { s with r := s.r + 1, received := s.received ++ [c] }

/-- A turn of the loop of `consoleread()`. -/
def consoleread (s : Console n) (p : Fin n) (m target : Nat) (killed copied : Bool) : Console n :=
  if 0 < m then
    if s.r = s.w then
      if killed then s.leave p (-1)
      else setPc { s with lock := none } p (.acquire m target)
    else
      let c := s.buf (s.r.toNat % inputBufSize)
      if c = ctrlD then
        -- a ^D after the first byte is put back for the next read
        if m < target then s.leave p (target - m) else (s.consume c).leave p (target - m)
      else if copied = false then leave { s with r := s.r + 1 } p (target - m)
      else if c = newline then (s.consume c).leave p (target - m + 1)
      else (s.consume c).setPc p (.loop (m - 1) target)
  else s.leave p (target - m)

def step (s : Console n) : ConsAct n → Option (Console n)
  | .consoleintr c => if s.lock = none then some (s.consoleintr c) else none
  | .consoleread p m => if s.pc p = .user then some (s.setPc p (.acquire m m)) else none
  | .go p killed copied =>
    match s.pc p with
    | .user => none
    | .acquire m target => if s.lock = none then some (setPc { s with lock := some p } p (.loop m target)) else none
    | .loop m target => some (s.consoleread p m target killed copied)

end Console

/-! ## What a reader can do -/

section
variable (s : Console n) (p : Fin n)

/-- One constructor for each thing that a step of a reader can do; `copied` is false in the one that loses a byte. -/
inductive ReaderStep (copied : Bool) : Console n → Prop
  | call (m : Nat) (hpc : s.pc p = .user) : ReaderStep copied (s.setPc p (.acquire m m))
  | acquire (m target : Nat) (hpc : s.pc p = .acquire m target) (hfree : s.lock = none) :
      ReaderStep copied (Console.setPc { s with lock := some p } p (.loop m target))
  | none (m target : Nat) (hpc : s.pc p = .loop m target) (hm : m = 0) : ReaderStep copied (s.leave p (target - m))
  | killed (m target : Nat) (hpc : s.pc p = .loop m target) (hm : 0 < m) (hempty : s.r = s.w) :
      ReaderStep copied (s.leave p (-1))
  | wait (m target : Nat) (hpc : s.pc p = .loop m target) (hm : 0 < m) (hempty : s.r = s.w) :
      ReaderStep copied (Console.setPc { s with lock := Option.none } p (.acquire m target))
  | putBack (m target : Nat) (hpc : s.pc p = .loop m target) (hm : 0 < m) (hne : s.r ≠ s.w)
      (hc : s.buf (s.r.toNat % inputBufSize) = ctrlD) (hmt : m < target) : ReaderStep copied (s.leave p (target - m))
  | eof (m target : Nat) (hpc : s.pc p = .loop m target) (hm : 0 < m) (hne : s.r ≠ s.w)
      (hc : s.buf (s.r.toNat % inputBufSize) = ctrlD) (hmt : ¬ m < target) :
      ReaderStep copied ((s.consume ctrlD).leave p (target - m))
  | lost (m target : Nat) (hpc : s.pc p = .loop m target) (hcopied : copied = false) :
      ReaderStep copied (Console.leave { s with r := s.r + 1 } p (target - m))
  | line (m target : Nat) (hpc : s.pc p = .loop m target) (hm : 0 < m) (hne : s.r ≠ s.w)
      (hc : s.buf (s.r.toNat % inputBufSize) = newline) :
      ReaderStep copied ((s.consume newline).leave p (target - m + 1))
  | byte (m target : Nat) (c : UInt8) (hpc : s.pc p = .loop m target) (hm : 0 < m) (hne : s.r ≠ s.w)
      (hc : s.buf (s.r.toNat % inputBufSize) = c) (hD : c ≠ ctrlD) (hnl : c ≠ newline) :
      ReaderStep copied ((s.consume c).setPc p (.loop (m - 1) target))

end

variable {s t : Console n} {p : Fin n}

theorem consoleread_step {m target : Nat} (killed copied : Bool) (hpc : s.pc p = .loop m target) :
    ReaderStep s p copied (s.consoleread p m target killed copied) := by
  unfold Console.consoleread
  by_cases hm : 0 < m
  · rw [if_pos hm]
    by_cases hempty : s.r = s.w
    · rw [if_pos hempty]
      cases killed with
      | true => exact .killed m target hpc hm hempty
      | false => exact .wait m target hpc hm hempty
    · rw [if_neg hempty]
      dsimp only
      by_cases hD : s.buf (s.r.toNat % inputBufSize) = ctrlD
      · rw [if_pos hD, hD]
        by_cases hmt : m < target
        · rw [if_pos hmt]
          exact .putBack m target hpc hm hempty hD hmt
        · rw [if_neg hmt]
          exact .eof m target hpc hm hempty hD hmt
      · rw [if_neg hD]
        by_cases hcopied : copied = false
        · rw [if_pos hcopied]
          exact .lost m target hpc hcopied
        · rw [if_neg hcopied]
          by_cases hnl : s.buf (s.r.toNat % inputBufSize) = newline
          · rw [if_pos hnl, hnl]
            exact .line m target hpc hm hempty hnl
          · rw [if_neg hnl]
            exact .byte m target _ hpc hm hempty rfl hD hnl
  · rw [if_neg hm]
    exact .none m target hpc (by omega)

theorem readerStep_of_go {killed copied : Bool} (h : s.step (.go p killed copied) = some t) :
    ReaderStep s p copied t := by
  cases hpc : s.pc p with
  | user =>
    simp only [Console.step, hpc] at h
    cases h
  | acquire m target =>
    simp only [Console.step, hpc] at h
    obtain ⟨hfree, ht⟩ := Option.ite_none_right_eq_some.mp h
    exact Option.some.inj ht ▸ .acquire m target hpc hfree
  | loop m target =>
    simp only [Console.step, hpc] at h
    exact Option.some.inj h ▸ consoleread_step killed copied hpc

end Xv6
