import Xv6.Lib.FreeRun
import Xv6.Pipe.Machine

/-!
# A pipe is a FIFO

* `PipePc.inside` : where a process holds `pi->lock`; at most one does (`PipeLock`);
* `RingOk` : the ring holds the bytes that have been stored and not delivered;
* `pipe_fifo` : what holds of every state and of every step of every run.
-/

namespace Xv6
open Automaton FreeRun Function

variable {n : Nat} {s t : PipeState n} {p q : Fin n}

/-! ## The lock -/

/-- Where a process holds `pi->lock`. -/
def PipePc.inside : PipePc n → Bool
  | loop _ => true
  | copy _ _ => true
  | wake _ _ _ _ => true
  | prepare _ => true
  | release _ => true
  | _ => false

def PipeLock (s : PipeState n) : Prop := ∀ q, s.lock = some q ↔ (s.pc q).inside = true

/-- A step moves one process only. -/
theorem PipeStep.pc_of_ne (h : PipeStep s p t) (hq : q ≠ p) : t.pc q = s.pc q := by
  cases h <;> first | rfl | exact update_of_ne hq ..

theorem PipeLock.only (h : PipeLock s) (hp : (s.pc p).inside = true) (hq : (s.pc q).inside = true) : q = p :=
  Option.some.inj (((h q).mpr hq).symm.trans ((h p).mpr hp))

/-- A step keeps the lock and where its process is, or acquires the lock, or releases it. -/
theorem PipeStep.lock_cases (h : PipeStep s p t) :
    (t.lock = s.lock ∧ (t.pc p).inside = (s.pc p).inside) ∨
    (s.lock = none ∧ t.lock = some p ∧ (t.pc p).inside = true) ∨
    ((s.pc p).inside = true ∧ t.lock = none ∧ (t.pc p).inside = false) := by
  have hself : ∀ (u : PipeState n) c, (u.setPc p c).pc p = c := fun u c => update_self ..
  cases h with
  | kkill q => exact .inl ⟨rfl, rfl⟩
  | acquire k hpc hfree => exact .inr (.inl ⟨hfree, rfl, by rw [hself]; rfl⟩)
  | writeGone m i fresh hpc => exact .inr (.inr ⟨by rw [hpc]; rfl, rfl, by rw [PipeState.leave, hself]; rfl⟩)
  | readKilled m hpc => exact .inr (.inr ⟨by rw [hpc]; rfl, rfl, by rw [PipeState.leave, hself]; rfl⟩)
  | wakeReturn c k r hpc => exact .inr (.inr ⟨by rw [hpc]; rfl, rfl, by rw [PipeState.leave, hself]; rfl⟩)
  | release k hpc => exact .inr (.inr ⟨by rw [hpc]; rfl, rfl, by rw [hself]; rfl⟩)
  | _ =>
    refine .inl ⟨rfl, ?_⟩
    first | rw [hself] | rw [PipeState.beginWake, hself]
    simp only [PipePc.inside, *]

theorem PipeLock.step (h : PipeLock s) (hs : PipeStep s p t) : PipeLock t := by
  have hother : ∀ q, q ≠ p → ((t.pc q).inside = true ↔ s.lock = some q) := fun q hq => by
    rw [hs.pc_of_ne hq]
    exact (h q).symm
  rcases hs.lock_cases with ⟨hl, hin⟩ | ⟨hfree, hl, hin⟩ | ⟨hin, hl, hout⟩
  · intro q
    by_cases hq : q = p
    · rw [hq, hl, hin]
      exact h p
    · rw [hl, hother q hq]
  · intro q
    by_cases hq : q = p
    · rw [hq]
      exact iff_of_true hl hin
    · rw [hother q hq, hl, hfree]
      exact iff_of_false (fun he => hq (Option.some.inj he).symm) fun he => by cases he
  · intro q
    rw [hl]
    refine iff_of_false (fun he => by cases he) fun hc => ?_
    by_cases hq : q = p
    · rw [hq, hout] at hc
      cases hc
    · exact hq (Option.some.inj (((hother q hq).mp hc).symm.trans ((h p).mpr hin)))

/-- What other processes cannot change while a process holds the lock. -/
structure SamePipe (s t : PipeState n) : Prop where
  nread : t.nread = s.nread
  nwrite : t.nwrite = s.nwrite
  readopen : t.readopen = s.readopen
  writeopen : t.writeopen = s.writeopen

theorem PipeStep.same (h : PipeStep s p t) (hp : (s.pc p).inside = false) : SamePipe s t := by
  cases h with
  | call k hpc => exact ⟨rfl, rfl, rfl, rfl⟩
  | kkill q => exact ⟨rfl, rfl, rfl, rfl⟩
  | acquire k hpc hfree => exact ⟨rfl, rfl, rfl, rfl⟩
  | sleepNot k hpc => exact ⟨rfl, rfl, rfl, rfl⟩
  | sleep k hpc => exact ⟨rfl, rfl, rfl, rfl⟩
  | woken k hpc => exact ⟨rfl, rfl, rfl, rfl⟩
  | _ => simp_all [PipePc.inside]

/-- The process that holds the lock is alone in changing the pipe. -/
theorem PipeLock.same_of_ne (h : PipeLock s) (hs : PipeStep s p t) (hq : (s.pc q).inside = true) (hne : q ≠ p) :
    SamePipe s t :=
  hs.same (Bool.eq_false_iff.mpr fun hp => hne (h.only hp hq))

/-! ## The ring -/

/-- The ring holds `unread`, the bytes that have been stored and not delivered. -/
structure RingOk (s : PipeState n) (unread : List UInt8) : Prop where
  stored : s.stored = s.delivered ++ unread
  room : unread.length ≤ pipesize
  nread : s.nread = BitVec.ofNat 32 s.delivered.length
  nwrite : s.nwrite = BitVec.ofNat 32 (s.delivered.length + unread.length)
  cells : Holds s.data pipesize s.delivered.length unread

variable {unread : List UInt8}

theorem RingOk.lt (h : RingOk s unread) : unread.length < 2 ^ 32 := Nat.lt_of_le_of_lt h.room (by decide)

theorem RingOk.count (h : RingOk s unread) : (s.nwrite - s.nread).toNat = unread.length := by
  rw [h.nwrite, h.nread, toNat_sub_ofNat h.lt]

theorem RingOk.empty_iff (h : RingOk s unread) : s.empty = true ↔ unread = [] := by
  rw [PipeState.empty, decide_eq_true_iff, h.nwrite, h.nread, eq_comm, ofNat_eq_add_iff h.lt, List.length_eq_zero_iff]

theorem RingOk.full_iff (h : RingOk s unread) : s.full = true ↔ unread.length = pipesize := by
  rw [PipeState.full, decide_eq_true_iff, h.nwrite, h.nread, ofNat_eq_add_size_iff h.room (by decide)]

theorem RingOk.store (h : RingOk s unread) (hroom : s.full = false) (ch : UInt8) :
    RingOk (s.store ch) (unread ++ [ch]) := by
  have hlt : unread.length < pipesize := by
    refine Nat.lt_of_le_of_ne h.room fun hc => ?_
    rw [h.full_iff.mpr hc] at hroom
    cases hroom
  constructor
  · show s.stored ++ [ch] = _
    rw [h.stored, List.append_assoc]
    rfl
  · rw [List.length_append]
    exact hlt
  · exact h.nread
  · show s.nwrite + 1 = BitVec.ofNat 32 (s.delivered.length + (unread ++ [ch]).length)
    rw [h.nwrite, List.length_append, ← Nat.add_assoc, BitVec.ofNat_add _ (List.length [ch])]
    rfl
  · have hcell : s.nwrite.toNat % pipesize = (s.delivered.length + unread.length) % pipesize := by
      rw [h.nwrite, toNat_mod_ofNat (by decide)]
    show Holds (update s.data (s.nwrite.toNat % pipesize) ch) _ _ _
    rw [hcell]
    exact h.cells.push hlt

theorem RingOk.fetch {ch : UInt8} (h : RingOk s (ch :: unread)) :
    s.fetch.delivered = s.delivered ++ [ch] ∧ RingOk s.fetch unread := by
  have hcell : s.data (s.nread.toNat % pipesize) = ch := by
    rw [h.nread, toNat_mod_ofNat (by decide)]
    exact h.cells.head
  have hdel : s.fetch.delivered = s.delivered ++ [ch] := by
    show s.delivered ++ [s.data _] = _
    rw [hcell]
  have hlen : s.fetch.delivered.length = s.delivered.length + 1 := by
    rw [hdel, List.length_append]
    rfl
  refine ⟨hdel, ?_, Nat.le_of_succ_le h.room, ?_, ?_, ?_⟩
  · show s.stored = _
    rw [hdel, h.stored, List.append_assoc]
    rfl
  · show s.nread + 1 = _
    rw [hlen, h.nread, BitVec.ofNat_add]
    rfl
  · show s.nwrite = _
    rw [hlen, h.nwrite, List.length_cons]
    congr 1
    omega
  · rw [hlen]
    exact h.cells.pop

/-- The bytes that a step delivers, and that it stores. -/
theorem RingOk.step (h : RingOk s unread) (hs : PipeStep s p t) : ∃ unread', RingOk t unread' := by
  cases hs with
  | writeByte m i fresh ch hpc hopen hroom =>
    have hstore := h.store hroom ch
    exact ⟨_, hstore.stored, hstore.room, hstore.nread, hstore.nwrite, hstore.cells⟩
  | copyByte m i hpc hbyte =>
    cases unread with
    | nil =>
      rw [h.empty_iff.mpr rfl] at hbyte
      cases hbyte
    | cons ch rest =>
      have hfetch := h.fetch.2
      exact ⟨rest, hfetch.stored, hfetch.room, hfetch.nread, hfetch.nwrite, hfetch.cells⟩
  | _ => exact ⟨unread, h.stored, h.room, h.nread, h.nwrite, h.cells⟩

/-! ## What `piperead()` returns -/

/-- The `n` of a `piperead()` in progress. -/
def PipePc.reading : PipePc n → Option Nat
  | user => none
  | copy m _ => some m
  | acquire (.read m) => some m
  | loop (.read m) => some m
  | wake _ _ (.read m) _ => some m
  | prepare (.read m) => some m
  | release (.read m) => some m
  | sleep (.read m) => some m
  | asleep (.read m) => some m
  | _ => none

/-- A reader that has copied no byte, or is about to return 0. -/
structure ReadOk (s : PipeState n) : Prop where
  copying : ∀ q m, s.pc q = .copy m 0 → s.empty = false ∨ s.writeopen = false
  returning : ∀ q c todo m, s.pc q = .wake c todo (.read m) (some 0) → m = 0 ∨ (s.empty = true ∧ s.writeopen = false)

theorem ReadOk.step (h : ReadOk s) (hl : PipeLock s) (hs : PipeStep s p t) : ReadOk t := by
  -- the others hold nothing, or the pipe has not changed
  have hcopy : ∀ q ≠ p, ∀ m, t.pc q = .copy m 0 → t.empty = false ∨ t.writeopen = false := by
    intro q hq m hpc
    rw [hs.pc_of_ne hq] at hpc
    have hsame := hl.same_of_ne hs (by rw [hpc]; rfl) hq
    rw [PipeState.empty, hsame.nread, hsame.nwrite, hsame.writeopen]
    exact h.copying q m hpc
  have hwake : ∀ q ≠ p, ∀ c todo m, t.pc q = .wake c todo (.read m) (some 0) →
      m = 0 ∨ (t.empty = true ∧ t.writeopen = false) := by
    intro q hq c todo m hpc
    rw [hs.pc_of_ne hq] at hpc
    have hsame := hl.same_of_ne hs (by rw [hpc]; rfl) hq
    rw [PipeState.empty, hsame.nread, hsame.nwrite, hsame.writeopen]
    exact h.returning q c todo m hpc
  have hself : ∀ (u : PipeState n) c, (u.setPc p c).pc p = c := fun u c => update_self ..
  refine ⟨fun q m hpc => ?_, fun q c todo m hpc => ?_⟩
  · by_cases hq : q = p
    · subst hq
      cases hs with
      | kkill r => exact h.copying q m hpc
      | readCopy m' hpc' hready => exact hready
      | copyByte m' i hpc' =>
        rw [hself] at hpc
        cases hpc
      | _ =>
        first | rw [hself] at hpc | rw [PipeState.beginWake, hself] at hpc | rw [PipeState.leave, hself] at hpc
        cases hpc
    · exact hcopy q hq m hpc
  · by_cases hq : q = p
    · subst hq
      cases hs with
      | kkill r => exact h.returning q c todo m hpc
      | copyEnd m' i r hpc' hr =>
        rw [PipeState.beginWake, hself] at hpc
        obtain ⟨-, -, hm, hr0⟩ := PipePc.wake.inj hpc
        obtain rfl := PipeCall.read.inj hm
        obtain ⟨rfl, hem⟩ := hr (Option.some.inj hr0)
        rcases hem with hz | hem
        · exact .inl hz
        · rcases h.copying q m' hpc' with hne | hclosed
          · rw [hem] at hne
            cases hne
          · exact .inr ⟨hem, hclosed⟩
      | wake c' r todo' k' r' hpc' =>
        rw [hself] at hpc
        obtain ⟨-, -, rfl, rfl⟩ := PipePc.wake.inj hpc
        exact h.returning q c' (r :: todo') m hpc'
      | _ =>
        first | rw [hself] at hpc | rw [PipeState.beginWake, hself] at hpc | rw [PipeState.leave, hself] at hpc
        cases hpc
    · exact hwake q hq c todo m hpc

/-! ## Runs -/

/-- What every step keeps. -/
structure PipeInv (s : PipeState n) : Prop where
  lock : PipeLock s
  ring : ∃ unread, RingOk s unread
  read : ReadOk s

theorem pipeInv_init (data : Nat → UInt8) : PipeInv (.init data : PipeState n) where
  lock q := iff_of_false (fun h => by cases h) fun h => by cases h
  ring := ⟨[], rfl, Nat.zero_le _, rfl, rfl, Holds.nil _ _ _⟩
  read := by
    constructor
    · intro q m h
      cases h
    · intro q c todo m h
      cases h

theorem PipeInv.step (h : PipeInv s) (hs : PipeStep s p t) : PipeInv t := by
  obtain ⟨unread, hring⟩ := h.ring
  exact ⟨h.lock.step hs, hring.step hs, h.read.step h.lock hs⟩

theorem pipeInv_of_reachable {data : Nat → UInt8} (hs : Reachable PipeState.step (.init data) s) : PipeInv s :=
  hs.invariant (pipeInv_init data) fun _ _ _ _ hi hstep => hi.step (pipeStep_of_step hstep)

/-- A byte whose `copyout()` fails is not consumed. -/
theorem failed_copyout {m i : Nat} (hpc : s.pc p = .copy m i) (h : s.step (p, .go none) = some t) :
    t.nread = s.nread ∧ t.delivered = s.delivered := by
  simp only [PipeState.step, hpc, PipeState.pipecopy] at h
  obtain rfl := Option.some.inj h
  split
  · exact ⟨rfl, rfl⟩
  · exact ⟨rfl, rfl⟩

/-- Only `piperead()` consumes bytes, one at a time and in the order of the ring. -/
theorem PipeStep.consumes (h : PipeStep s p t) :
    (t.nread = s.nread ∧ t.delivered = s.delivered) ∨
      ∃ m i, s.pc p = .copy m i ∧ t.nread = s.nread + 1 ∧
        t.delivered = s.delivered ++ [s.data (s.nread.toNat % pipesize)] := by
  cases h with
  | copyByte m i hpc => exact .inr ⟨m, i, hpc, rfl, rfl⟩
  | _ => exact .inl ⟨rfl, rfl⟩

/-- A `piperead()` of no bytes, or of an empty pipe that nobody can write to. -/
theorem read_zero {m : Nat} (h : ReadOk s) (hs : PipeStep s p t) (hm : (s.pc p).reading = some m)
    (huser : t.pc p = .user) (hret : t.ret p = 0) : m = 0 ∨ (s.empty = true ∧ s.writeopen = false) := by
  have hself : ∀ (u : PipeState n) c, (u.setPc p c).pc p = c := fun u c => update_self ..
  have hleave : ∀ (u : PipeState n) r, (u.leave p r).ret p = r := fun u r => update_self ..
  cases hs with
  | kkill q =>
    have hpc : s.pc p = .user := huser
    rw [hpc] at hm
    cases hm
  | writeGone m' i fresh hpc =>
    rw [hpc] at hm
    cases hm
  | readKilled m' hpc =>
    rw [hleave] at hret
    cases hret
  | wakeReturn c k r hpc =>
    rw [hleave] at hret
    rw [hpc] at hm
    cases k with
    | read m' =>
      obtain rfl := Option.some.inj hm
      exact h.returning p c [] m' (by rw [hpc, hret])
    | write m' i fresh => cases hm
    | close w => cases hm
  | _ =>
    first | rw [hself] at huser | rw [PipeState.beginWake, hself] at huser
    cases huser

/-- **A pipe is a lossless FIFO.** In every state of every run: at most 512 bytes are unread; the bytes stored are the
bytes delivered, in order, followed by the unread ones; no step but a successful `copyout()` of `piperead()` consumes a
byte; and a `piperead()` that returns 0 was asked for none, or has found the pipe empty and its write end closed. -/
theorem pipe_fifo {data : Nat → UInt8} (hs : Reachable PipeState.step (.init data) s) :
    (s.nwrite - s.nread).toNat ≤ pipesize ∧
    (∃ unread, s.stored = s.delivered ++ unread ∧ unread.length = (s.nwrite - s.nread).toNat) ∧
    (∀ p m i t, s.pc p = .copy m i → s.step (p, .go none) = some t →
      t.nread = s.nread ∧ t.delivered = s.delivered) ∧
    (∀ p a t, s.step (p, a) = some t → (t.nread = s.nread ∧ t.delivered = s.delivered) ∨
      ∃ m i, s.pc p = .copy m i ∧ t.nread = s.nread + 1 ∧
        t.delivered = s.delivered ++ [s.data (s.nread.toNat % pipesize)]) ∧
    ∀ p m a t, (s.pc p).reading = some m → s.step (p, a) = some t → t.pc p = .user → t.ret p = 0 →
      m = 0 ∨ (s.empty = true ∧ s.writeopen = false) := by
  have hinv := pipeInv_of_reachable hs
  obtain ⟨unread, hring⟩ := hinv.ring
  refine ⟨by rw [hring.count]; exact hring.room, ⟨unread, hring.stored, hring.count.symm⟩, ?_, ?_, ?_⟩
  · exact fun p m i t hpc h => failed_copyout hpc h
  · exact fun p a t h => (pipeStep_of_step h).consumes
  · exact fun p m a t hm h huser hret => read_zero hinv.read (pipeStep_of_step h) hm huser hret

/-- Process 0 writes two bytes, and process 1 reads one of them. -/
def twoBytes : List (Fin 2 × PipeAct 2) :=
  [(0, .pipewrite 2), (0, .go none), (0, .go (some 7)), (0, .go (some 8)), (0, .go none), (0, .go none), (0, .go none),
   (0, .go none), (1, .piperead 1), (1, .go none), (1, .go none), (1, .go (some 0)), (1, .go none)]

theorem pipe_fifo_twoBytes : ∃ s, run PipeState.step (.init fun _ => 0) twoBytes = some s ∧ s.stored = [7, 8] ∧
    s.delivered = [7] ∧ ∃ unread, s.stored = s.delivered ++ unread ∧ unread.length = (s.nwrite - s.nread).toNat := by
  have hrun : run PipeState.step (.init fun _ => 0) twoBytes = some (runD PipeState.step (.init fun _ => 0) twoBytes) :=
    run_eq_runD (by decide)
  exact ⟨_, hrun, by decide, by decide, (pipe_fifo ⟨_, hrun⟩).2.1⟩

end Xv6
