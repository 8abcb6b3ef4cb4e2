import Xv6.Lib.Ring
import Xv6.Lib.Weigh
import Xv6.Log.Disk

/-!
# The buffer cache

Any number of threads call `bread()`, `brelse()`, `bwrite()`, `bpin()` (through `log_write()`) and `bunpin()`.
A section under `bcache.lock` is one step, and so are taking and releasing a buffer's sleep-lock and a transfer
to or from the disk.

* `BufState` : the buffers, their LRU list and sleep-locks, and the disk; `binit` : the list at the start;
* `BufPc` : where a thread is inside `bread()` or `brelse()`;
* `BufState.step` : one step of one thread, for threads that keep to the rules of use: data is changed under the
  buffer's lock, and saved with `log_write()` or `bwrite()` before `brelse()`; a pin is dropped under the lock
  after `bwrite()`, as `install_trans()` does;
* `BufStep` : what a step can do.
-/

namespace Xv6
open LinkedRing Function

instance neZeroNbuf : NeZero nbuf := ⟨by decide⟩

/-- `struct buf` but for its links and its lock. -/
structure Buf (α : Type*) where
  valid : Bool
  dev : Nat
  blockno : Nat
  refcnt : Int
  data : α

/-- `lock` waits for the buffer that `bget()` has chosen, `fill` is about to read it from the disk; `drop` has
released its lock in `brelse()`. -/
inductive BufPc where
  | idle
  | lock (dev b : Nat) (i : Fin nbuf)
  | fill (dev b : Nat) (i : Fin nbuf)
  | drop (i : Fin nbuf)
  deriving DecidableEq

structure BufState (T : Type*) (α : Type*) where
  buf : Fin nbuf → Buf α
  /-- `none` is `bcache.head`. -/
  links : Links (Option (Fin nbuf))
  lock : Fin nbuf → Option T
  pc : T → BufPc
  disk : Nat → Nat → α
  panic : Bool
  /-- The pins of the log: `log_write()` pins a block that is not in the log yet. -/
  pins : Fin nbuf → Nat
  /-- The holder has changed the data and called neither `log_write()` nor `bwrite()` since. -/
  unsaved : Fin nbuf → Bool
  /-- The data was written to disk by `bwrite()` after its last change. -/
  synced : Fin nbuf → Bool
  /-- What was stored last through a buffer of the block. -/
  stored : Nat → Nat → Option α

/-- `binit()`. -/
def binit : Links (Option (Fin nbuf)) :=
  (List.finRange nbuf).foldl (fun k i => k.insertFront none (some i)) ⟨fun _ => none, fun _ => none⟩

variable {T : Type*} {α : Type*}

namespace BufState

def init [Inhabited α] (d : Nat → Nat → α) : BufState T α where
  buf _ := ⟨false, 0, 0, 0, default⟩
  links := binit
  lock _ := none
  pc _ := .idle
  disk := d
  panic := false
  pins _ := 0
  unsaved _ := false
  synced _ := false
  stored _ _ := none

/-- The buffers in the order of the first loop of `bget()`. -/
def forward (s : BufState T α) : List (Fin nbuf) := (walk s.links.next none nbuf (s.links.next none)).reduceOption

/-- The buffers in the order of its second loop. -/
def backward (s : BufState T α) : List (Fin nbuf) := (walk s.links.prev none nbuf (s.links.prev none)).reduceOption

def cached (s : BufState T α) (dev b : Nat) : Option (Fin nbuf) :=
  s.forward.find? fun i => (s.buf i).dev = dev ∧ (s.buf i).blockno = b

def unused (s : BufState T α) : Option (Fin nbuf) := s.backward.find? fun i => (s.buf i).refcnt = 0

def setBuf (s : BufState T α) (i : Fin nbuf) (b : Buf α) : BufState T α := { s with buf := update s.buf i b }

variable [DecidableEq T]

def setPc (s : BufState T α) (p : T) (c : BufPc) : BufState T α := { s with pc := update s.pc p c }

/-- The section of `bget()`. -/
def bget (s : BufState T α) (p : T) (dev b : Nat) : BufState T α :=
  match s.cached dev b with
  | some i => (s.setBuf i { s.buf i with refcnt := (s.buf i).refcnt + 1 }).setPc p (.lock dev b i)
  | none =>
    match s.unused with
    | some i => (s.setBuf i ⟨false, dev, b, 1, (s.buf i).data⟩).setPc p (.lock dev b i)
    | none => { s with panic := true }

/-- `acquiresleep()` succeeds, and `bread()` looks at `valid`. -/
def acquire (s : BufState T α) (p : T) (dev b : Nat) (i : Fin nbuf) : BufState T α :=
  setPc { s with lock := update s.lock i (some p) } p (if (s.buf i).valid then .idle else .fill dev b i)

/-- `virtio_disk_rw(b, 0)` of `bread()`. -/
def fill (s : BufState T α) (p : T) (i : Fin nbuf) : BufState T α :=
  (s.setBuf i { s.buf i with valid := true, data := s.disk (s.buf i).dev (s.buf i).blockno }).setPc p .idle

/-- The section of `brelse()`. -/
def drop (s : BufState T α) (p : T) (i : Fin nbuf) : BufState T α :=
  setPc { s.setBuf i { s.buf i with refcnt := (s.buf i).refcnt - 1 } with
    links := if (s.buf i).refcnt - 1 = 0 then (s.links.unlink (some i)).insertFront none (some i) else s.links } p .idle

def store (s : BufState T α) (i : Fin nbuf) (v : α) : BufState T α :=
  { s.setBuf i { s.buf i with data := v } with
    unsaved := update s.unsaved i true
    synced := update s.synced i false
    stored := update s.stored (s.buf i).dev
      (update (s.stored (s.buf i).dev) (s.buf i).blockno (some v)) }

/-- `log_write()`. -/
def logWrite (s : BufState T α) (i : Fin nbuf) : BufState T α :=
  if s.pins i = 0 then
    { s.setBuf i { s.buf i with refcnt := (s.buf i).refcnt + 1 } with
      pins := update s.pins i 1
      unsaved := update s.unsaved i false }
  else { s with unsaved := update s.unsaved i false }

def bwrite (s : BufState T α) (i : Fin nbuf) : BufState T α :=
  { s with
    disk := update s.disk (s.buf i).dev
      (update (s.disk (s.buf i).dev) (s.buf i).blockno (s.buf i).data)
    unsaved := update s.unsaved i false
    synced := update s.synced i true }

def bunpin (s : BufState T α) (i : Fin nbuf) : BufState T α :=
  { s.setBuf i { s.buf i with refcnt := (s.buf i).refcnt - 1 } with pins := update s.pins i (s.pins i - 1) }

/-- `releasesleep()` of `brelse()`. -/
def brelse (s : BufState T α) (p : T) (i : Fin nbuf) : BufState T α :=
  setPc { s with lock := update s.lock i none } p (.drop i)

end BufState

inductive BufCall (α : Type*) where
  | bread (dev b : Nat)
  | cont
  | store (i : Fin nbuf) (v : α)
  | logWrite (i : Fin nbuf)
  | bwrite (i : Fin nbuf)
  | bunpin (i : Fin nbuf)
  | brelse (i : Fin nbuf)

variable [DecidableEq T]

def BufState.step (s : BufState T α) (l : T × BufCall α) : Option (BufState T α) :=
  match s.panic, s.pc l.1, l.2 with
  | false, .idle, .bread dev b => some (s.bget l.1 dev b)
  | false, .lock dev b i, .cont => if s.lock i = none then some (s.acquire l.1 dev b i) else none
  | false, .fill _ _ i, .cont => some (s.fill l.1 i)
  | false, .drop i, .cont => some (s.drop l.1 i)
  | false, .idle, .store i v => if s.lock i = some l.1 then some (s.store i v) else none
  | false, .idle, .logWrite i => if s.lock i = some l.1 then some (s.logWrite i) else none
  | false, .idle, .bwrite i => if s.lock i = some l.1 then some (s.bwrite i) else none
  | false, .idle, .bunpin i =>
    if s.lock i = some l.1 ∧ 0 < s.pins i ∧ s.synced i = true then some (s.bunpin i) else none
  | false, .idle, .brelse i =>
    if s.lock i = some l.1 ∧ s.unsaved i = false then some (s.brelse l.1 i) else none
  | _, _, _ => none

/-! ## What a step can do -/

inductive BufStep (s : BufState T α) (p : T) : BufState T α → Prop
  | hit (dev b : Nat) (i : Fin nbuf) (hp : s.pc p = .idle) (hi : (s.buf i).dev = dev ∧ (s.buf i).blockno = b) :
      BufStep s p ((s.setBuf i { s.buf i with refcnt := (s.buf i).refcnt + 1 }).setPc p (.lock dev b i))
  | recycle (dev b : Nat) (i : Fin nbuf) (hp : s.pc p = .idle) (hn : s.cached dev b = none)
      (hi : (s.buf i).refcnt = 0) :
      BufStep s p ((s.setBuf i ⟨false, dev, b, 1, (s.buf i).data⟩).setPc p (.lock dev b i))
  | panic (hp : s.pc p = .idle) : BufStep s p { s with panic := true }
  | acquire (dev b : Nat) (i : Fin nbuf) (hp : s.pc p = .lock dev b i) (hl : s.lock i = none) :
      BufStep s p (s.acquire p dev b i)
  | fill (dev b : Nat) (i : Fin nbuf) (hp : s.pc p = .fill dev b i) : BufStep s p (s.fill p i)
  | drop (i : Fin nbuf) (hp : s.pc p = .drop i) : BufStep s p (s.drop p i)
  | store (i : Fin nbuf) (v : α) (hp : s.pc p = .idle) (hl : s.lock i = some p) : BufStep s p (s.store i v)
  | logWrite (i : Fin nbuf) (hp : s.pc p = .idle) (hl : s.lock i = some p) : BufStep s p (s.logWrite i)
  | bwrite (i : Fin nbuf) (hp : s.pc p = .idle) (hl : s.lock i = some p) : BufStep s p (s.bwrite i)
  | bunpin (i : Fin nbuf) (hp : s.pc p = .idle) (hl : s.lock i = some p) (hpin : 0 < s.pins i)
      (hs : s.synced i = true) : BufStep s p (s.bunpin i)
  | brelse (i : Fin nbuf) (hp : s.pc p = .idle) (hl : s.lock i = some p) (hu : s.unsaved i = false) :
      BufStep s p (s.brelse p i)

theorem bufStep_of_step {s t : BufState T α} {p : T} {a : BufCall α} (h : s.step (p, a) = some t) : BufStep s p t := by
  simp only [BufState.step] at h
  split at h
  case h_1 dev b _ hp =>
    cases h
    unfold BufState.bget
    split
    · rename_i i hi
      have hfound := List.find?_some hi
      exact .hit dev b i hp (by simpa using hfound)
    · rename_i hn
      split
      · rename_i i hi
        have hfound := List.find?_some hi
        exact .recycle dev b i hp hn (by simpa using hfound)
      · exact .panic hp
  case h_2 dev b i _ hp =>
    split at h
    · rename_i hl
      cases h
      exact .acquire dev b i hp hl
    · cases h
  case h_3 dev b i _ hp => cases h; exact .fill dev b i hp
  case h_4 i _ hp => cases h; exact .drop i hp
  case h_5 i v _ hp =>
    split at h
    · rename_i hl
      cases h
      exact .store i v hp hl
    · cases h
  case h_6 i _ hp =>
    split at h
    · rename_i hl
      cases h
      exact .logWrite i hp hl
    · cases h
  case h_7 i _ hp =>
    split at h
    · rename_i hl
      cases h
      exact .bwrite i hp hl
    · cases h
  case h_8 i _ hp =>
    split at h
    · rename_i hl
      cases h
      exact .bunpin i hp hl.1 hl.2.1 hl.2.2
    · cases h
  case h_9 i _ hp =>
    split at h
    · rename_i hl
      cases h
      exact .brelse i hp hl.1 hl.2
    · cases h
  case h_10 => cases h

end Xv6
