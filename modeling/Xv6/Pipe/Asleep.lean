import Xv6.Pipe.Fifo

/-!
# Who sleeps on a pipe

* `Blocked c` : what a process that sleeps on the channel `c` waits for has not come;
* `PipePc.owes` : the holder of `pi->lock` still has to come to a `wakeup(c)` that looks at a process;
* `Spared` : `pipewrite()` does not find its process killed between a byte it stores and its next `wakeup()`;
* `asleep_blocked` : in runs of such steps, nobody sleeps on a ready pipe while the lock is free.
-/

namespace Xv6
open Automaton Function

variable {n : Nat} {s t : PipeState n} {p q : Fin n} {c : PipeChan}

namespace PipePc

/-- Between `sleep_prepare()` and the end of `sleep()`. -/
def waiting : PipePc n → Bool
  | release _ => true
  | sleep _ => true
  | asleep _ => true
  | _ => false

/-- The call that goes on with its loop after `sleep()`. -/
def resumes : PipePc n → Option PipeCall
  | acquire k => some k
  | wake _ _ k none => some k
  | prepare k => some k
  | release k => some k
  | sleep k => some k
  | asleep k => some k
  | _ => none

/-- There is a `wakeup(c)` to come that looks at `q`, before the lock is released. -/
def owes (c : PipeChan) (q : Fin n) : PipePc n → Prop
  | wake d todo _ _ => d = c ∧ q ∈ todo
  | loop (.write _ _ true) => c = .nread
  | copy _ _ => c = .nwrite
  | _ => False

theorem owes.inside {pc : PipePc n} (h : pc.owes c q) : pc.inside = true := by
  cases pc with
  | loop k => rfl
  | copy m i => rfl
  | wake d todo k r => rfl
  | _ => exact h.elim

end PipePc

/-- `&pi->nread`: the pipe is empty and its write end is open. `&pi->nwrite`: it is full and its read end is open. -/
def PipeState.Blocked (s : PipeState n) : PipeChan → Prop
  | .nread => s.empty = true ∧ s.writeopen = true
  | .nwrite => s.full = true ∧ s.readopen = true

theorem SamePipe.blocked (h : SamePipe s t) (hb : s.Blocked c) : t.Blocked c := by
  cases c with
  | nread =>
    rw [PipeState.Blocked, PipeState.empty, h.nread, h.nwrite, h.writeopen]
    exact hb
  | nwrite =>
    rw [PipeState.Blocked, PipeState.full, h.nread, h.nwrite, h.readopen]
    exact hb

/-- `pipewrite()` is about to test `killed()` with a byte stored that no `wakeup()` has announced. -/
def PipePc.unannounced : PipePc n → Bool
  | loop (.write m i true) => i < m
  | _ => false

/-- The step of `p` does not find its process killed with a byte stored that no `wakeup()` has announced. -/
def Spared (s : PipeState n) (p : Fin n) : Prop := (s.pc p).unannounced = true → (s.proc p).killed = false

instance (s : PipeState n) (p : Fin n) : Decidable (Spared s p) :=
  inferInstanceAs (Decidable ((s.pc p).unannounced = true → (s.proc p).killed = false))

/-- No process waits with a byte stored that it has not announced. -/
def Announced (s : PipeState n) : Prop := ∀ q m i, (s.pc q).resumes ≠ some (.write m i true)

/-- What the holder of the lock knows of the pipe. -/
structure HolderOk (s : PipeState n) : Prop where
  preparing : ∀ q k, s.pc q = .prepare k → s.Blocked k.chan
  waking : ∀ q d todo k, s.pc q = .wake d todo k none → s.Blocked k.chan
  storing : ∀ q m i, s.pc q = .loop (.write m i true) → s.readopen = true

/-- A waiting process is blocked, or a `wakeup()` is on its way. -/
def WaitOk (s : PipeState n) : Prop :=
  ∀ q c, (s.pc q).waiting = true → (s.proc q).chan = some c → s.Blocked c ∨ ∃ r, (s.pc r).owes c q

structure AsleepInv (s : PipeState n) : Prop where
  lock : PipeLock s
  announced : Announced s
  holder : HolderOk s
  wait : WaitOk s
  asleep : ∀ q, (s.proc q).sleeping = true → ∃ k, s.pc q = .asleep k

/-! ## The holder of the lock -/

theorem Announced.step (h : Announced s) (hs : PipeStep s p t) : Announced t := by
  have hself : ∀ (u : PipeState n) c, (u.setPc p c).pc p = c := fun u c => update_self ..
  intro q m i
  by_cases hq : q = p
  · subst hq
    have hq := h q m i
    cases hs with
    | call k hpc hk =>
      rw [hself]
      exact fun hc => hk m i (Option.some.inj hc)
    | kkill r => exact hq
    | wake d r todo k r' hpc =>
      rw [hpc] at hq
      rw [hself]
      cases r' with
      | none => exact hq
      | some r' => exact hq
    | wakeSleep d k hpc =>
      rw [hpc] at hq
      rw [hself]
      exact hq
    | prepare k hpc =>
      rw [hpc] at hq
      rw [hself]
      exact hq
    | release k hpc =>
      rw [hpc] at hq
      rw [hself]
      exact hq
    | sleepNot k hpc =>
      rw [hpc] at hq
      rw [hself]
      exact hq
    | sleep k hpc =>
      rw [hpc] at hq
      rw [hself]
      exact hq
    | woken k hpc =>
      rw [hpc] at hq
      rw [hself]
      exact hq
    | _ =>
      first | rw [hself] | rw [PipeState.beginWake, hself] | rw [PipeState.leave, hself]
      exact fun hc => by cases hc
  · rw [hs.pc_of_ne hq]
    exact h q m i

theorem HolderOk.step (h : HolderOk s) (ha : Announced s) (hl : PipeLock s) (hs : PipeStep s p t) : HolderOk t := by
  have hself : ∀ (u : PipeState n) c, (u.setPc p c).pc p = c := fun u c => update_self ..
  -- another process that holds the lock sees the pipe as it was
  have hsame : ∀ q ≠ p, (t.pc q).inside = true → SamePipe s t := fun q hq hin =>
    hl.same_of_ne hs (by rw [← hs.pc_of_ne hq]; exact hin) hq
  refine ⟨fun q k hpc => ?_, fun q d todo k hpc => ?_, fun q m i hpc => ?_⟩
  · by_cases hq : q = p
    · subst hq
      cases hs with
      | kkill r => exact h.preparing q k hpc
      | readWait m hpc' hempty hopen =>
        rw [hself] at hpc
        obtain rfl := PipePc.prepare.inj hpc
        exact ⟨hempty, hopen⟩
      | wakeSleep d k' hpc' =>
        rw [hself] at hpc
        obtain rfl := PipePc.prepare.inj hpc
        exact h.waking q d [] _ hpc'
      | _ =>
        first | rw [hself] at hpc | rw [PipeState.beginWake, hself] at hpc | rw [PipeState.leave, hself] at hpc
        cases hpc
    · exact (hsame q hq (by rw [hpc]; rfl)).blocked (h.preparing q k (by rw [← hs.pc_of_ne hq, hpc]))
  · by_cases hq : q = p
    · subst hq
      cases hs with
      | kkill r => exact h.waking q d todo k hpc
      | writeFull m i fresh hpc' hopen hfull =>
        rw [PipeState.beginWake, hself] at hpc
        obtain ⟨-, -, rfl, -⟩ := PipePc.wake.inj hpc
        exact ⟨hfull, hopen⟩
      | wake d' r todo' k' r' hpc' =>
        rw [hself] at hpc
        obtain ⟨rfl, rfl, rfl, rfl⟩ := PipePc.wake.inj hpc
        exact h.waking q _ _ _ hpc'
      | _ =>
        first | rw [hself] at hpc | rw [PipeState.beginWake, hself] at hpc | rw [PipeState.leave, hself] at hpc
        cases hpc
    · exact (hsame q hq (by rw [hpc]; rfl)).blocked (h.waking q d todo k (by rw [← hs.pc_of_ne hq, hpc]))
  · by_cases hq : q = p
    · subst hq
      cases hs with
      | kkill r => exact h.storing q m i hpc
      | writeByte m' i' fresh ch hpc' hopen => exact hopen
      | acquire k hpc' hfree =>
        rw [hself] at hpc
        obtain rfl := PipePc.loop.inj hpc
        exact (ha q m i (by rw [hpc']; rfl)).elim
      | _ =>
        first | rw [hself] at hpc | rw [PipeState.beginWake, hself] at hpc | rw [PipeState.leave, hself] at hpc
        cases hpc
    · rw [(hsame q hq (by rw [hpc]; rfl)).readopen]
      exact h.storing q m i (by rw [← hs.pc_of_ne hq, hpc])

/-! ## Wakeups that are owed -/

/-- A step that ends what sleepers wait for owes them a wakeup. -/
theorem PipeStep.blocked_or_owes (h : PipeStep s p t) (hb : s.Blocked c) (q : Fin n) :
    t.Blocked c ∨ (t.pc p).owes c q := by
  have hself : ∀ (u : PipeState n) c, (u.setPc p c).pc p = c := fun u c => update_self ..
  cases h with
  | writeByte m i fresh ch hpc hopen hroom =>
    cases c with
    | nread =>
      refine .inr ?_
      rw [hself]
      rfl
    | nwrite =>
      rw [hb.1] at hroom
      cases hroom
  | copyByte m i hpc hbyte =>
    cases c with
    | nread =>
      rw [hb.1] at hbyte
      cases hbyte
    | nwrite =>
      refine .inr ?_
      rw [hself]
      rfl
  | closeWrite hpc =>
    cases c with
    | nread =>
      refine .inr ?_
      rw [PipeState.beginWake, hself]
      exact ⟨rfl, List.mem_finRange q⟩
    | nwrite => exact .inl hb
  | closeRead hpc =>
    cases c with
    | nread => exact .inl hb
    | nwrite =>
      refine .inr ?_
      rw [PipeState.beginWake, hself]
      exact ⟨rfl, List.mem_finRange q⟩
  | _ =>
    refine .inl ?_
    cases c <;> exact hb

/-- A wakeup that is owed is still owed after a step, or has been made. -/
theorem PipeStep.owes (h : PipeStep s p t) (hh : HolderOk s) (hsp : Spared s p) (ho : (s.pc p).owes c q) :
    (t.pc p).owes c q ∨ (t.proc q).chan ≠ some c := by
  have hself : ∀ (u : PipeState n) c, (u.setPc p c).pc p = c := fun u c => update_self ..
  cases h with
  | kkill r => exact .inl ho
  | writeGone m i fresh hpc hi hgone =>
    rw [hpc] at ho
    cases fresh with
    | false => exact ho.elim
    | true =>
      rcases hgone with hclosed | hkilled
      · rw [hh.storing p m i hpc] at hclosed
        cases hclosed
      · rw [hsp (by rw [hpc]; exact decide_eq_true hi)] at hkilled
        cases hkilled
  | writeFull m i fresh hpc hopen hfull =>
    rw [hpc] at ho
    cases fresh with
    | false => exact ho.elim
    | true =>
      obtain rfl : c = .nread := ho
      rw [PipeState.beginWake, hself]
      exact .inl ⟨rfl, List.mem_finRange q⟩
  | writeByte m i fresh ch hpc hopen hroom =>
    rw [hpc] at ho
    cases fresh with
    | false => exact ho.elim
    | true =>
      rw [hself]
      exact .inl ho
  | writeEnd m i fresh r hpc =>
    rw [hpc] at ho
    cases fresh with
    | false => exact ho.elim
    | true =>
      obtain rfl : c = .nread := ho
      rw [PipeState.beginWake, hself]
      exact .inl ⟨rfl, List.mem_finRange q⟩
  | copyByte m i hpc hbyte =>
    rw [hpc] at ho
    rw [hself]
    exact .inl ho
  | copyEnd m i r hpc hr =>
    rw [hpc] at ho
    obtain rfl : c = .nwrite := ho
    rw [PipeState.beginWake, hself]
    exact .inl ⟨rfl, List.mem_finRange q⟩
  | wake d r todo k r' hpc =>
    rw [hpc] at ho
    obtain ⟨rfl, hmem⟩ := ho
    rcases List.mem_cons.mp hmem with rfl | hmem
    · refine .inr ?_
      show (update s.proc q (PipeState.wakeOne d (s.proc q)) q).chan ≠ _
      rw [update_self, PipeState.wakeOne]
      split
      · exact fun hc => by cases hc
      · assumption
    · rw [hself]
      exact .inl ⟨rfl, hmem⟩
  | wakeSleep d k hpc =>
    rw [hpc] at ho
    exact absurd ho.2 List.not_mem_nil
  | wakeReturn d k r hpc =>
    rw [hpc] at ho
    exact absurd ho.2 List.not_mem_nil
  | _ =>
    simp only [*] at ho
    exact ho.elim

/-! ## Waiting processes -/

/-- Only `sleep_prepare()` sets a channel. -/
theorem PipeStep.chan (h : PipeStep s p t) (hc : (t.proc q).chan = some c) :
    (s.proc q).chan = some c ∨ ∃ k, q = p ∧ s.pc p = .prepare k ∧ c = k.chan := by
  have hset : ∀ (u : PipeState n) (r : Fin n) x, (update u.proc r x q).chan = some c →
      (u.proc q).chan = some c ∨ (q = r ∧ x.chan = some c) := by
    intro u r x hx
    by_cases hq : q = r
    · rw [hq, update_self] at hx
      exact .inr ⟨hq, hx⟩
    · rw [update_of_ne hq] at hx
      exact .inl hx
  cases h with
  | kkill r =>
    rcases hset s r _ hc with hx | ⟨rfl, hx⟩
    · exact .inl hx
    · exact .inl hx
  | wake d r todo k r' hpc =>
    rcases hset s r _ hc with hx | ⟨rfl, hx⟩
    · exact .inl hx
    · rw [PipeState.wakeOne] at hx
      split at hx
      · cases hx
      · exact .inl hx
  | prepare k hpc =>
    rcases hset s p _ hc with hx | ⟨hq, hx⟩
    · exact .inl hx
    · exact .inr ⟨k, hq, hpc, (Option.some.inj hx).symm⟩
  | sleep k hpc =>
    rcases hset s p _ hc with hx | ⟨rfl, hx⟩
    · exact .inl hx
    · exact .inl hx
  | _ => exact .inl hc

/-- Only `sleep_prepare()` begins to wait. -/
theorem PipeStep.waiting (h : PipeStep s p t) (hw : (t.pc q).waiting = true) :
    (s.pc q).waiting = true ∨ ∃ k, q = p ∧ s.pc p = .prepare k ∧ (t.proc q).chan = some k.chan := by
  have hself : ∀ (u : PipeState n) c, (u.setPc p c).pc p = c := fun u c => update_self ..
  by_cases hq : q = p
  · subst hq
    cases h with
    | kkill r => exact .inl hw
    | prepare k hpc =>
      refine .inr ⟨k, rfl, hpc, ?_⟩
      show (update s.proc q _ q).chan = _
      rw [update_self]
    | release k hpc =>
      rw [hpc]
      exact .inl rfl
    | sleep k hpc =>
      rw [hpc]
      exact .inl rfl
    | _ =>
      first | rw [hself] at hw | rw [PipeState.beginWake, hself] at hw | rw [PipeState.leave, hself] at hw
      cases hw
  · rw [h.pc_of_ne hq] at hw
    exact .inl hw

theorem WaitOk.step (h : WaitOk s) (hh : HolderOk s) (hsp : Spared s p) (hs : PipeStep s p t) : WaitOk t := by
  intro q c hw hc
  have hblocked : s.Blocked c → t.Blocked c ∨ ∃ r, (t.pc r).owes c q := fun hb =>
    (hs.blocked_or_owes hb q).imp_right fun ho => ⟨p, ho⟩
  -- a process that has waited before
  have hold : (s.pc q).waiting = true → (s.proc q).chan = some c → t.Blocked c ∨ ∃ r, (t.pc r).owes c q := by
    intro hw' hc'
    rcases h q c hw' hc' with hb | ⟨r, ho⟩
    · exact hblocked hb
    · by_cases hr : r = p
      · rw [hr] at ho
        rcases hs.owes hh hsp ho with ho | hne
        · exact .inr ⟨p, ho⟩
        · exact absurd hc hne
      · exact .inr ⟨r, by rw [hs.pc_of_ne hr]; exact ho⟩
  rcases hs.waiting hw with hw' | ⟨k, -, hk, hck⟩
  · rcases hs.chan hc with hc' | ⟨k, -, hk, hck⟩
    · exact hold hw' hc'
    · exact hblocked (hck ▸ hh.preparing p k hk)
  · exact hblocked (Option.some.inj (hc.symm.trans hck) ▸ hh.preparing p k hk)

/-- Only `sleep()` puts its process to sleep. -/
theorem PipeStep.sleeping (h : PipeStep s p t) (hq : (t.proc q).sleeping = true) :
    (s.proc q).sleeping = true ∨ (q = p ∧ ∃ k, t.pc p = .asleep k) := by
  have hset : ∀ (u : PipeState n) (r : Fin n) x, (update u.proc r x q).sleeping = true →
      (u.proc q).sleeping = true ∨ (q = r ∧ x.sleeping = true) := by
    intro u r x hx
    by_cases hq : q = r
    · rw [hq, update_self] at hx
      exact .inr ⟨hq, hx⟩
    · rw [update_of_ne hq] at hx
      exact .inl hx
  cases h with
  | kkill r =>
    rcases hset s r _ hq with hx | ⟨rfl, hx⟩
    · exact .inl hx
    · cases hx
  | wake d r todo k r' hpc =>
    rcases hset s r _ hq with hx | ⟨rfl, hx⟩
    · exact .inl hx
    · rw [PipeState.wakeOne] at hx
      split at hx
      · cases hx
      · exact .inl hx
  | prepare k hpc =>
    rcases hset s p _ hq with hx | ⟨rfl, hx⟩
    · exact .inl hx
    · exact .inl hx
  | sleep k hpc =>
    rcases hset s p _ hq with hx | ⟨rfl, hx⟩
    · exact .inl hx
    · exact .inr ⟨rfl, k, update_self ..⟩
  | _ => exact .inl hq

/-- A process that is asleep makes no step but one that wakes it up. -/
theorem PipeStep.asleep (h : PipeStep s p t) {k : PipeCall} (hpc : s.pc p = .asleep k)
    (hsl : (s.proc p).sleeping = true) : t.pc p = .asleep k := by
  cases h with
  | kkill r => exact hpc
  | woken k' hpc' hawake =>
    rw [hsl] at hawake
    cases hawake
  | _ => simp_all

/-! ## Runs -/

theorem AsleepInv.step (h : AsleepInv s) (hsp : Spared s p) (hs : PipeStep s p t) : AsleepInv t where
  lock := h.lock.step hs
  announced := h.announced.step hs
  holder := h.holder.step h.announced h.lock hs
  wait := h.wait.step h.holder hsp hs
  asleep q hq := by
    rcases hs.sleeping hq with hq' | ⟨rfl, k, hk⟩
    · obtain ⟨k, hk⟩ := h.asleep q hq'
      by_cases hp : q = p
      · rw [hp] at hk hq' ⊢
        exact ⟨k, hs.asleep hk hq'⟩
      · rw [hs.pc_of_ne hp]
        exact ⟨k, hk⟩
    · exact ⟨k, hk⟩

theorem asleepInv_init (data : Nat → UInt8) : AsleepInv (.init data : PipeState n) where
  lock := (pipeInv_init data).lock
  announced q m i h := by cases h
  holder := by
    constructor
    · intro q k h
      cases h
    · intro q d todo k h
      cases h
    · intro q m i h
      cases h
  wait q c h := by cases h
  asleep q h := by cases h

/-- Nobody sleeps on a pipe that is ready for them. -/
def NoneSleepsReady (s : PipeState n) : Prop :=
  s.lock = none → ∀ q, (s.proc q).sleeping = true →
    ((s.proc q).chan = some .nread → s.empty = true ∧ s.writeopen = true) ∧
    ((s.proc q).chan = some .nwrite → s.full = true ∧ s.readopen = true)

theorem AsleepInv.none (h : AsleepInv s) : NoneSleepsReady s := by
  intro hfree q hq
  have hblocked : ∀ c, (s.proc q).chan = some c → s.Blocked c := by
    intro c hc
    obtain ⟨k, hk⟩ := h.asleep q hq
    refine (h.wait q c (by rw [hk]; rfl) hc).resolve_right fun ⟨r, ho⟩ => ?_
    -- who owes a wakeup holds the lock
    rw [(h.lock r).mpr ho.inside] at hfree
    cases hfree
  exact ⟨hblocked .nread, hblocked .nwrite⟩

/-- **Nobody sleeps on a ready pipe**, in a run in which no `pipewrite()` finds its process killed with a byte stored
and not announced. -/
theorem asleep_blocked {data : Nat → UInt8} {ls : List (Fin n × PipeAct n)}
    (h : Each PipeState.step (fun s l _ => Spared s l.1) (.init data) ls) :
    Always PipeState.step NoneSleepsReady (.init data) ls := by
  have hstep : ∀ (s : PipeState n) l t, s.step l = some t → Spared s l.1 → AsleepInv s → AsleepInv t :=
    fun s l t ht hsp hinv => hinv.step hsp (pipeStep_of_step ht)
  exact ((h.imp hstep).always (asleepInv_init data)).imp fun _ => AsleepInv.none

/-- Process 1 goes to sleep in `piperead()`, and process 0 stores the first of two bytes. -/
def readerSleeps : List (Fin 3 × PipeAct 3) :=
  [(1, .piperead 1), (1, .go none), (1, .go none), (1, .go none), (1, .go none), (1, .go none),
   (0, .pipewrite 2), (0, .go none), (0, .go (some 7))]

theorem asleep_blocked_readerSleeps : (run PipeState.step (.init fun _ => 0) readerSleeps).isSome ∧
    Always PipeState.step NoneSleepsReady (.init fun _ => 0) readerSleeps :=
  ⟨by decide, asleep_blocked (by decide)⟩

/-- Process 2 kills process 0 before its second byte, and `pipewrite()` returns without its `wakeup()`. -/
def writerKilled : List (Fin 3 × PipeAct 3) := readerSleeps ++ [(2, .kkill 0), (0, .go none)]

/-- A killed writer leaves a reader asleep although there is a byte to read. -/
theorem killed_writer_wakes_nobody : ∃ s : PipeState 3, Reachable PipeState.step (.init fun _ => 0) s ∧
    s.lock = none ∧ s.pc 0 = .user ∧ (s.proc 1).sleeping = true ∧ (s.proc 1).chan = some .nread ∧ s.empty = false ∧
    ¬ NoneSleepsReady s := by
  have hrun : run PipeState.step (.init fun _ => 0) writerKilled =
      some (runD PipeState.step (.init fun _ => 0) writerKilled) := run_eq_runD (by decide)
  refine ⟨_, ⟨_, hrun⟩, by decide, by decide, by decide, by decide, by decide, fun h => ?_⟩
  exact absurd ((h (by decide) 1 (by decide)).1 (by decide)).1 (by decide)

end Xv6
