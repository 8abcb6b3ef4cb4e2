import Xv6.Sched.Pass

/-!
# Aging rules out starvation

A RUNNABLE slot `w` that nobody dispatches is visited once in every iteration of every scheduler loop.
The visits lower its priority to 0; from then on every iteration of a CPU dispatches a slot that lies
before `w` on the way from `next_index`, and moves `next_index` nearer to `w`.

* `iterations c b s ls` : the iterations of the loop of CPU `c` that the run begins and completes;
* `toZero p` : the visits after which the priority of a waiting slot is 0 (at least one);
* `budget p k w loc b` : a bound on the iterations still to come; `budget_step` : no step raises it, and
  the end of an iteration lowers it;
* `Cycling.many` : a CPU that runs alone makes any number of iterations.
-/

namespace Xv6
open Function

open Wrap Automaton

variable {n : Nat} {s t : State n} {l : Label n} {ls : List (Label n)} {p : Proc} {w : Slot}

/-! ## Iterations of a scheduler's loop -/

/-- What a step does to the count of iterations: the number it completes, and whether CPU `c` is now
in an iteration that began inside the run. -/
def tick (c : Fin n) (begun : Bool) (s t : State n) : Nat × Bool :=
  if (s.cpu c).loc = .top then (0, if (t.cpu c).loc = .top then begun else true)
  else if (t.cpu c).loc = .top then (if begun then 1 else 0, false)
  else (0, begun)

def iterations (c : Fin n) : Bool → State n → List (Label n) → Nat
  | _, _, [] => 0
  | begun, s, l :: ls =>
    match step s l with
    | none => 0
    | some t => (tick c begun s t).1 + iterations c (tick c begun s t).2 t ls

theorem iterations_cons {c : Fin n} {begun : Bool} (h : step s l = some t) : iterations c begun s (l :: ls) =
      (tick c begun s t).1 + iterations c (tick c begun s t).2 t ls := by
  simp only [iterations, h]

/-! ## The locals of the scans -/

/-- `best_priority` is not negative, and it is `PRIORITY_MAX + 1` until something is found. -/
def SchedLoc.LocalsOk : SchedLoc → Prop
  | .scan _ best found | .scanIn _ best found => 0 ≤ best ∧ (found = false → best = priorityMax + 1)
  | .select _ best | .selectIn _ best => 0 ≤ best
  | _ => True

theorem better_ok {best : Int} {found : Bool} (hp : 0 ≤ p.priority)
    (h : 0 ≤ best ∧ (found = false → best = priorityMax + 1)) :
    0 ≤ (better p best found).1 ∧ ((better p best found).2 = false →
      (better p best found).1 = priorityMax + 1) := by
  unfold better
  split
  · exact ⟨hp, by simp⟩
  · exact h

theorem scanAfter_ok {i : Slot} {best : Int} {found : Bool}
    (h : 0 ≤ best ∧ (found = false → best = priorityMax + 1)) : (scanAfter i best found).LocalsOk := by
  unfold scanAfter
  split
  · exact h
  · split
    · exact h.1
    · trivial

theorem localsOk_of_reachable (h : Reachable s) (c : Fin n) : (s.cpu c).loc.LocalsOk := by
  have h0 : ((State.init n).cpu c).loc.LocalsOk := trivial
  refine Automaton.Reachable.invariant (P := fun s : State n => (s.cpu c).loc.LocalsOk) h0 ?_ h
  rintro s ⟨d, ch⟩ t hs hok ht
  by_cases hd : c = d
  · subst hd
    have hsched := sched_step ht
    generalize writeOf s (c, ch) = w at hsched
    cases hsched with
    | stay hloc => rwa [hloc]
    | start _ hloc' => rw [hloc']; trivial
    | pass _ hloc' => rw [hloc']; exact ⟨by decide, fun _ => rfl⟩
    | scan hloc hloc' => rw [hloc']; rw [hloc] at hok; exact hok
    | @visit i _ _ hloc hloc' =>
      rw [hloc']
      rw [hloc] at hok
      exact scanAfter_ok (better_ok (fieldsOk_of_reachable hs i).visit.valid.1 hok)
    | select hloc hloc' => rw [hloc']; rw [hloc] at hok; exact hok
    | dispatch _ _ _ _ hloc' => rw [hloc']; trivial
    | @skip o _ best hloc _ _ hloc' =>
      rw [hloc']
      rw [hloc] at hok
      unfold selectAfter
      split
      · exact hok
      · trivial
    | swtch _ hloc' => rw [hloc']; trivial
    | back _ hloc' => rw [hloc']; trivial
    | wfi _ hloc' => rw [hloc']; trivial
  · rw [cpu_of_ne ht hd]
    exact hok

/-! ## A waiting slot -/

/-- What a step does to a slot that is RUNNABLE before and after it, and whose priority nobody sets. -/
theorem waiting_step (hs : Reachable s) (h : step s l = some t) (hr : (s.proc w).state = .runnable)
    (hr' : (t.proc w).state = .runnable) (hno : ∀ v, writeOf s l ≠ some (w, .ksetpriority v)) :
    (writeOf s l = some (w, .visit) ∧ t.proc w = schedulerVisit (s.proc w)) ∨
      ((t.proc w).priority = (s.proc w).priority ∧ (t.proc w).waitTicks = (s.proc w).waitTicks) := by
  obtain ⟨c, ch⟩ := l
  rcases (inv_of_reachable hs).slot_step h w with ⟨-, hp⟩ | ⟨op, hwr, htw, hp⟩
  · exact Or.inr ⟨by rw [hp], by rw [hp]⟩
  · rw [hp] at hr' ⊢
    cases htw with
    | visit _ => exact Or.inl ⟨hwr, rfl⟩
    | dispatch => cases hr'
    | userinit _ hstate => rw [hr] at hstate; cases hstate
    | leave _ hstate => rw [hr] at hstate; cases hstate
    | self _ hstate => rw [hr] at hstate; cases hstate
    | scan hop =>
      cases hop with
      | wakeup _ => exact Or.inr ⟨rfl, rfl⟩
      | kkill _ => exact Or.inr ⟨rfl, rfl⟩
      | ksetpriority _ _ => exact absurd hwr (hno _)
    | allocproc hstate => rw [hr] at hstate; cases hstate
    | inherit _ hstate => rw [hr] at hstate; cases hstate
    | forkfail hstate => rw [hr] at hstate; cases hstate
    | setParent _ _ hstate => rw [hr] at hstate; cases hstate
    | publish hstate => rw [hr] at hstate; cases hstate
    | reparent => exact Or.inr ⟨rfl, rfl⟩
    | reap _ _ hstate => rw [hr] at hstate; cases hstate

def toZero (p : Proc) : Nat := if p.priority = 0 then 1 else 50 * p.priority.toNat + 1 - p.waitTicks

theorem toZero_pos (h : FieldsOk p) (hr : p.state = .runnable) : 1 ≤ toZero p := by
  unfold toZero
  split
  · exact le_refl _
  · rename_i hne
    have hv := h.valid
    simp only [priorityValid, priorityMin] at hv
    have hb := h.bound hr (by omega)
    unfold agingInterval at hb
    omega

/-- A visit to a slot whose priority is not 0 yet. -/
theorem toZero_visit (h : FieldsOk p) (hr : p.state = .runnable) (hp : 0 < p.priority) :
    (schedulerVisit p).priority = 0 ∨
      (0 < (schedulerVisit p).priority ∧ toZero (schedulerVisit p) + 1 = toZero p) := by
  have hv := h.valid
  simp only [priorityValid, priorityMin, priorityMax] at hv
  have hb := h.bound hr hp
  unfold agingInterval at hb
  by_cases hg : agingInterval ≤ p.waitTicks ∧ priorityValid p.priority ∧ 0 < p.priority
  · rw [schedulerVisit_fall hr hg.1 hg.2.1 hg.2.2]
    have hw := hg.1
    unfold agingInterval at hw
    unfold toZero
    dsimp only
    split_ifs <;> omega
  · rw [schedulerVisit_wait hr hg]
    have hw : p.waitTicks < 50 := by
      by_contra hge
      exact hg ⟨by unfold agingInterval; omega, h.valid, hp⟩
    have hmod : (p.waitTicks + 1) % 2 ^ 32 = p.waitTicks + 1 := Nat.mod_eq_of_lt (by omega)
    unfold toZero
    dsimp only
    rw [hmod]
    split_ifs <;> omega

theorem priority_visit_zero (hp : p.priority = 0) : (schedulerVisit p).priority = 0 := by
  rcases schedulerVisit_priority p with h | ⟨-, -, h, -⟩
  · rw [h, hp]
  · omega

theorem toZero_visit_le (h : FieldsOk p) (hr : p.state = .runnable) :
    toZero (schedulerVisit p) ≤ toZero p := by
  have hpos := toZero_pos h hr
  have hv := h.valid.1
  unfold priorityMin at hv
  by_cases hz : p.priority = 0
  · unfold toZero
    rw [if_pos (priority_visit_zero hz), if_pos hz]
  · rcases toZero_visit h hr (by omega) with h0 | ⟨-, h1⟩
    · rw [toZero, if_pos h0]
      exact hpos
    · omega

/-! ## The measure -/

/-- The iterations still to come, from the head of the loop on, wherever `next_index` is. -/
def rest (p : Proc) : Nat := toZero p + 62

/-- The iterations still to come, from the head of the loop on, with `next_index = k`. -/
def ahead (p : Proc) (k w : Slot) : Nat := if p.priority = 0 then gap k w else rest p

/-- The iterations still to come, the present one included if it began inside the run. -/
def budget (p : Proc) (k w : Slot) : SchedLoc → Bool → Nat
  | .top, _ => ahead p k w
  | _, false => rest p
  | .scan i best _, true | .scanIn i best _, true =>
    if i ≤ w then ahead p k w
    else if p.priority = 0 ∧ best = 0 then gap k w else 1 + rest p
  | .select o best, true | .selectIn o best, true =>
    if p.priority = 0 ∧ best = 0 ∧ o.val ≤ gap k w then gap k w else 1 + rest p
  | .switched i, true | .back i, true => 1 + ahead p (i + 1) w
  | .wfi, true | .boot, true => 1 + rest p

section Measure
variable {p p' : Proc} {k w : Slot}

theorem ahead_le_rest (h : 1 ≤ toZero p) : ahead p k w ≤ rest p := by
  have : gap k w < 64 := gap_lt k w
  unfold ahead rest
  split <;> omega

theorem rest_mono (h : toZero p' ≤ toZero p) : rest p' ≤ rest p := by
  unfold rest
  omega

/-- The measure falls with the priority. -/
theorem ahead_mono (h0 : p.priority = 0 → p'.priority = 0) (h : toZero p' ≤ toZero p) (hp : 1 ≤ toZero p) :
    ahead p' k w ≤ ahead p k w := by
  have : gap k w < 64 := gap_lt k w
  unfold ahead rest
  by_cases hz : p.priority = 0
  · rw [if_pos hz, if_pos (h0 hz)]
  · rw [if_neg hz]
    split <;> omega

theorem budget_mono (h0 : p.priority = 0 → p'.priority = 0) (h : toZero p' ≤ toZero p) (hp : 1 ≤ toZero p)
    (loc : SchedLoc) (begun : Bool) : budget p' k w loc begun ≤ budget p k w loc begun := by
  have hd : gap k w < 64 := gap_lt k w
  have hr := rest_mono h
  have ha : ∀ k, ahead p' k w ≤ ahead p k w := fun k => ahead_mono h0 h hp
  have hrest : 63 ≤ rest p := by unfold rest; omega
  have haw := ha k
  cases loc <;> cases begun <;> simp only [budget]
  all_goals first
    | exact hr
    | exact ha _
    | exact Nat.add_le_add_left hr 1
    | exact Nat.add_le_add_left (ha _) 1
    | by_cases hz : p.priority = 0
      · have hz' := h0 hz
        simp only [hz, hz', true_and]
        split_ifs <;> omega
      · simp only [hz, false_and, if_false]
        split_ifs <;> omega

end Measure

section Step
variable {s t : State n} {c : Fin n} {w : Slot} {begun : Bool} {p : Proc} {k : Slot}

/-- The bound on the iterations of CPU `c` still to come while slot `w` waits. -/
def State.budget (s : State n) (c : Fin n) (w : Slot) (begun : Bool) : Nat :=
  Xv6.budget (s.proc w) (s.cpu c).nextIndex w (s.cpu c).loc begun

theorem tick_same (h : (t.cpu c).loc = (s.cpu c).loc) : tick c begun s t = (0, begun) := by
  unfold tick
  rw [h]
  split <;> simp [*]

theorem tick_inside (h : (s.cpu c).loc ≠ .top) (h' : (t.cpu c).loc ≠ .top) :
    tick c begun s t = (0, begun) := by
  unfold tick
  rw [if_neg h, if_neg h']

theorem tick_end (h : (s.cpu c).loc ≠ .top) (h' : (t.cpu c).loc = .top) :
    tick c begun s t = (if begun then 1 else 0, false) := by
  unfold tick
  rw [if_neg h, if_pos h']

theorem scanAfter_ne_top (i : Slot) (best : Int) (found : Bool) : scanAfter i best found ≠ .top := by
  unfold scanAfter
  split_ifs <;> simp

/-- The visit of CPU `c` to a slot other than `w`. -/
theorem budget_visit_other {i : Slot} {best best' : Int} {found found' : Bool} (hp : 1 ≤ toZero p) (hi : i ≠ w)
    (hle : best' ≤ best) (hpos : 0 ≤ best') (hfound : found' = false → best' = priorityMax + 1) :
    budget p k w (scanAfter i best' found') begun ≤ budget p k w (.scanIn i best found) begun := by
  have hd : gap k w < 64 := gap_lt k w
  have hrest : 63 ≤ rest p := by unfold rest; omega
  have hmax : priorityMax = 31 := rfl
  have hiw : i.val ≠ w.val := fun h => hi (Fin.ext h)
  have hw := w.isLt
  unfold scanAfter
  split
  · cases begun
    · exact Nat.le_refl _
    · simp only [budget, Fin.le_def]
      split_ifs <;> omega
  · split
    · cases begun
      · exact Nat.le_refl _
      · simp only [budget, Fin.le_def]
        split_ifs <;> simp_all <;> omega
    · rename_i hf
      have := hfound (Bool.eq_false_of_not_eq_true hf)
      cases begun
      · exact Nat.le_refl _
      · simp only [budget, Fin.le_def]
        split_ifs <;> omega

/-- The visit of CPU `c` to `w`. -/
theorem budget_visit_self {best best' : Int} {found found' : Bool} (h : FieldsOk p) (hr : p.state = .runnable)
    (hle : best' ≤ (schedulerVisit p).priority) (hpos : 0 ≤ best') (hfound : found' = false → best' = priorityMax + 1) :
    budget (schedulerVisit p) k w (scanAfter w best' found') begun ≤
      budget p k w (.scanIn w best found) begun := by
  have hd : gap k w < 64 := gap_lt k w
  have hmono := rest_mono (toZero_visit_le h hr)
  have hmax : priorityMax = 31 := rfl
  have hv := h.valid.1
  have hv' := h.visit.valid
  simp only [priorityValid, priorityMin] at hv hv'
  have hself : budget p k w (.scanIn w best found) true = ahead p k w := by simp [budget]
  have hafter : ¬ w.val + 1 ≤ w.val := by omega
  cases begun
  · unfold scanAfter
    split_ifs <;> exact hmono
  · rw [hself]
    by_cases hz : (schedulerVisit p).priority = 0
    · -- from here on the iteration ends with a dispatch before `w`
      have hbest : best' = 0 := by omega
      have hf : found' = true := by
        by_contra hf
        have := hfound (Bool.eq_false_of_not_eq_true hf)
        omega
      have hahead : gap k w ≤ ahead p k w := by
        have := toZero_pos h hr
        unfold ahead rest
        split <;> omega
      subst hbest hf
      unfold scanAfter
      split_ifs
      · simpa [budget, hz, Fin.le_def, hafter] using hahead
      · simpa [budget, hz] using hahead
      · contradiction
    · have hp : 0 < p.priority := by
        by_contra hp
        exact hz (priority_visit_zero (by omega))
      rcases toZero_visit h hr hp with h0 | ⟨-, h1⟩
      · exact absurd h0 hz
      · have hahead : 1 + rest (schedulerVisit p) = ahead p k w := by
          unfold ahead rest
          rw [if_neg (by omega)]
          omega
        unfold scanAfter
        split_ifs
        · simp [budget, hz, Fin.le_def, hafter, hahead]
        · simp [budget, hz, hahead]
        · simp [budget, hahead]

/-- A dispatch of a slot other than `w`. -/
theorem budget_dispatch {o : Slot} (best : Int) (begun : Bool) (hp : 1 ≤ toZero p) (hne : k + o ≠ w) :
    budget p k w (.switched (k + o)) begun ≤ budget p k w (.selectIn o best) begun := by
  have hrest := ahead_le_rest (k := k + o + 1) (w := w) hp
  cases begun
  · exact Nat.le_refl _
  · simp only [budget]
    split
    · rename_i hg
      have hlt : o.val < gap k w := by
        refine lt_of_le_of_ne hg.2.2 fun heq => hne (add_eq_of_gap heq)
      have := gap_add_one hlt
      rw [ahead, if_pos hg.1, this]
      omega
    · omega

/-- The second scan passes over a slot. -/
theorem budget_skip (k o : Slot) (best : Int) (begun : Bool) (hp : 1 ≤ toZero p) (hne : k + o = w → p.priority ≠ best) :
    (if (selectAfter o best) = .top then (if begun then 1 else 0) else 0) +
      budget p k w (selectAfter o best) (if (selectAfter o best) = .top then false else begun) ≤
        budget p k w (.selectIn o best) begun := by
  have hrest := ahead_le_rest (k := k) (w := w) hp
  have hd : gap k w < 64 := gap_lt k w
  have hpass : p.priority = 0 → best = 0 → o.val ≤ gap k w → o.val < gap k w := by
    intro h0 hb hle
    refine lt_of_le_of_ne hle fun heq => hne (add_eq_of_gap heq) ?_
    rw [h0, hb]
  have h63 : 63 ≤ rest p := by unfold rest; omega
  have hn : nproc = 64 := rfl
  unfold selectAfter
  split
  · cases begun
    · simp [budget]
    · simp only [budget, reduceCtorEq, if_false]
      split_ifs <;> omega
  · cases begun
    · simpa [budget] using hrest
    · simp only [budget, if_true]
      split_ifs <;> omega

/-- **A step and the measure.** -/
theorem budget_step {l : Label n} (hs : Reachable s) (h : step s l = some t)
    (hr : (s.proc w).state = .runnable) (hr' : (t.proc w).state = .runnable)
    (hno : ∀ v, writeOf s l ≠ some (w, .ksetpriority v)) (begun : Bool) :
    (tick c begun s t).1 + t.budget c w (tick c begun s t).2 ≤ s.budget c w begun := by
  have hf := fieldsOk_of_reachable hs w
  have hpos := toZero_pos hf hr
  have hwait := waiting_step hs h hr hr' hno
  have hmono : ∀ loc k, budget (t.proc w) k w loc begun ≤ budget (s.proc w) k w loc begun := by
    intro loc k
    rcases hwait with ⟨-, hv⟩ | ⟨hp, hw⟩
    · rw [hv]
      exact budget_mono priority_visit_zero (toZero_visit_le hf hr) hpos loc begun
    · have hz : toZero (t.proc w) = toZero (s.proc w) := by rw [toZero, toZero, hp, hw]
      exact budget_mono (fun h0 => by rw [hp, h0]) hz.le hpos loc begun
  obtain ⟨d, ch⟩ := l
  unfold State.budget
  by_cases hd : c = d
  · subst hd
    have htab := step_table h
    have hsched := sched_step h
    have hlocals := localsOk_of_reachable hs c
    generalize writeOf s (c, ch) = x at htab hsched
    cases hsched with
    | stay hloc hidx =>
      rw [tick_same hloc, hloc, hidx, Nat.zero_add]
      exact hmono _ _
    | start hloc hloc' =>
      rw [tick_end (by rw [hloc]; simp) hloc', hloc, hloc', htab]
      have := ahead_le_rest (k := (t.cpu c).nextIndex) (w := w) hpos
      cases begun
      · simpa [budget, tableAfter] using this
      · simpa [budget, tableAfter] using this
    | pass hloc hloc' hidx =>
      have htick : tick c begun s t = (0, true) := by
        unfold tick
        rw [if_pos hloc, if_neg (by rw [hloc']; simp)]
      rw [htick, hloc, hloc', hidx, htab]
      simp [budget, tableAfter]
    | scan hloc hloc' hidx =>
      rw [tick_inside (by rw [hloc]; simp) (by rw [hloc']; simp), hloc, hloc', hidx, htab, Nat.zero_add]
      cases begun <;> exact Nat.le_refl _
    | @visit i best found hloc hloc' hidx =>
      rw [tick_inside (by rw [hloc]; simp) (by rw [hloc']; exact scanAfter_ne_top _ _ _), hloc, hloc',
        hidx, htab, Nat.zero_add]
      rw [hloc] at hlocals
      have hok := better_ok (fieldsOk_of_reachable hs i).visit.valid.1 hlocals
      by_cases hi : i = w
      · subst hi
        rw [tableAfter, update_self]
        refine budget_visit_self hf hr ?_ hok.1 hok.2
        exact better_le_priority (by rw [schedulerVisit_state, hr]) _ _
      · rw [tableAfter, update_of_ne (Ne.symm hi)]
        exact budget_visit_other hpos hi (better_le _ _ _) hok.1 hok.2
    | select hloc hloc' hidx =>
      rw [tick_inside (by rw [hloc]; simp) (by rw [hloc']; simp), hloc, hloc', hidx, htab, Nat.zero_add]
      cases begun <;> exact Nat.le_refl _
    | @dispatch o i best hloc hi _ _ hloc' =>
      have hne : i ≠ w := by
        rintro rfl
        rw [htab, tableAfter, update_self] at hr'
        cases hr'
      rw [tick_inside (by rw [hloc]; simp) (by rw [hloc']; simp), hloc, hloc', htab, Nat.zero_add,
        tableAfter, update_of_ne (Ne.symm hne)]
      subst hi
      have := budget_dispatch best begun hpos hne
      cases begun <;> exact this
    | @skip o i best hloc hi hskip hloc' hidx =>
      have hb := budget_skip (w := w) (s.cpu c).nextIndex o best begun hpos
        (fun hw hp => hskip (by rw [hi, hw]; exact ⟨hr, hp⟩))
      by_cases htop : selectAfter o best = .top
      · rw [if_pos htop, if_pos htop] at hb
        rwa [tick_end (by rw [hloc]; simp) (by rw [hloc', htop]), hloc, hloc', hidx, htab]
      · rw [if_neg htop, if_neg htop] at hb
        rwa [tick_inside (by rw [hloc]; simp) (by rw [hloc']; exact htop), hloc, hloc', hidx, htab]
    | @swtch p hloc hloc' =>
      rw [tick_inside (by rw [hloc]; simp) (by rw [hloc']; simp), hloc, hloc', htab]
      cases begun <;> simp [budget, tableAfter]
    | back hloc hloc' hidx =>
      rw [tick_end (by rw [hloc]; simp) hloc', hloc, hloc', hidx, htab]
      have := ahead_le_rest (k := (t.cpu c).nextIndex) (w := w) hpos
      rw [hidx] at this
      cases begun
      · simpa [budget, tableAfter] using this
      · simp [budget, tableAfter]
    | wfi hloc hloc' hidx =>
      rw [tick_end (by rw [hloc]; simp) hloc', hloc, hloc', hidx, htab]
      have := ahead_le_rest (k := (s.cpu c).nextIndex) (w := w) hpos
      cases begun
      · simpa [budget, tableAfter] using this
      · simpa [budget, tableAfter] using this
  · have hcpu := cpu_of_ne h hd
    rw [tick_same (by rw [hcpu]), hcpu, Nat.zero_add]
    exact hmono _ _

/-- A run during which `w` waits. -/
theorem iterations_le_budget {ls : List (Label n)} (hs : Reachable s) (h : run step s ls = some t)
    (hwait : Always step (fun s => (s.proc w).state = .runnable) s ls)
    (hno : Each step (fun s l _ => ∀ v, writeOf s l ≠ some (w, .ksetpriority v)) s ls) (begun : Bool) :
    iterations c begun s ls ≤ s.budget c w begun := by
  induction ls generalizing s begun with
  | nil => exact Nat.zero_le _
  | cons l ls ih =>
    obtain ⟨u, hu, h⟩ := run_cons_eq_some.mp h
    have hstep := budget_step (c := c) hs hu hwait.1 (hwait.2 u hu).head (hno u hu).1 begun
    have hrest := ih (hs.next hu) h (hwait.2 u hu) (hno u hu).2 (tick c begun s u).2
    rw [iterations_cons hu]
    omega

end Step

/-- Only a dispatch takes a slot out of RUNNABLE. -/
theorem runnable_step (hs : Reachable s) (h : step s l = some t) (hr : (s.proc w).state = .runnable)
    (hno : writeOf s l ≠ some (w, .dispatch)) : (t.proc w).state = .runnable := by
  obtain ⟨c, ch⟩ := l
  rcases (inv_of_reachable hs).slot_step h w with ⟨-, hp⟩ | ⟨op, hwr, htw, hp⟩
  · rw [hp, hr]
  · rw [hp]
    cases htw with
    | visit _ => exact (schedulerVisit_state _).trans hr
    | dispatch => exact absurd hwr hno
    | userinit _ hstate => rw [hr] at hstate; cases hstate
    | leave _ hstate => rw [hr] at hstate; cases hstate
    | self _ hstate => rw [hr] at hstate; cases hstate
    | scan hop =>
      rcases hop.state with h1 | ⟨h1, -⟩
      · rw [h1, hr]
      · rw [hr] at h1
        cases h1
    | allocproc hstate => rw [hr] at hstate; cases hstate
    | inherit _ hstate => rw [hr] at hstate; cases hstate
    | forkfail hstate => rw [hr] at hstate; cases hstate
    | setParent _ _ hstate => rw [hr] at hstate; cases hstate
    | publish hstate => rw [hr] at hstate; cases hstate
    | reparent => exact hr
    | reap _ _ hstate => rw [hr] at hstate; cases hstate

theorem runnable_run (hs : Reachable s) (h : run step s ls = some t) (hr : (s.proc w).state = .runnable)
    (hno : Each step (fun s l _ => writeOf s l ≠ some (w, .dispatch)) s ls) :
    Always step (fun s => (s.proc w).state = .runnable) s ls := by
  induction ls generalizing s with
  | nil => exact hr
  | cons l ls ih =>
    obtain ⟨u, hu, h⟩ := run_cons_eq_some.mp h
    refine ⟨hr, fun v hv => ?_⟩
    rw [hu] at hv
    cases hv
    exact ih (hs.next hu) h (runnable_step hs hu hr (hno u hu).1) (hno u hu).2

theorem budget_le {c : Fin n} (hf : FieldsOk (s.proc w)) (hr : (s.proc w).state = .runnable) :
    s.budget c w false ≤ 50 * (s.proc w).priority.toNat + 63 := by
  have hpos := toZero_pos hf hr
  have hv := hf.valid.1
  unfold priorityMin at hv
  have hrest : rest (s.proc w) ≤ 50 * (s.proc w).priority.toNat + 63 := by
    unfold rest toZero
    split <;> omega
  refine le_trans ?_ hrest
  unfold State.budget
  cases (s.cpu c).loc
  all_goals first | exact Nat.le_refl _ | exact ahead_le_rest hpos

/-- **Aging rules out starvation.** While a slot waits and `ksetpriority()` is not applied to it, no CPU
begins and completes more than `50 * p0 + 64` iterations of its scheduler loop; so the slot is dispatched
in a run in which some CPU does. -/
theorem no_starvation (hs : Reachable s) (h : run step s ls = some t) (c : Fin n)
    (hno : Each step (fun s l _ => ∀ v, writeOf s l ≠ some (w, .ksetpriority v)) s ls) :
    (Always step (fun s => (s.proc w).state = .runnable) s ls →
      (iterations c false s ls : Int) ≤ 50 * (s.proc w).priority + 64) ∧
    ((s.proc w).state = .runnable →
      50 * (s.proc w).priority + 64 < (iterations c false s ls : Int) →
      Sometime step (fun s l _ => writeOf s l = some (w, .dispatch)) s ls) := by
  have hf := fieldsOk_of_reachable hs w
  have hv := hf.valid.1
  unfold priorityMin at hv
  have hbound : Always step (fun s => (s.proc w).state = .runnable) s ls →
      (iterations c false s ls : Int) ≤ 50 * (s.proc w).priority + 64 := by
    intro hwait
    have h1 := iterations_le_budget (c := c) hs h hwait hno false
    have h2 := budget_le (c := c) hf hwait.head
    omega
  refine ⟨hbound, fun hr hmany => ?_⟩
  rcases each_or_sometime (Q := fun s l _ => writeOf s l ≠ some (w, .dispatch)) h with hnone | hsome
  · have := hbound (runnable_run hs h hr hnone)
    omega
  · obtain ⟨ks, l, ms, u, v, hls, hu, hv, hn⟩ := hsome
    exact ⟨ks, l, ms, u, v, hls, hu, hv, not_not.mp hn⟩

/-! ## A CPU that goes on and on -/

section Cycle
variable {s t : State n} {c : Fin n} {P : Slot → Proc} {p : Slot}

theorem iterations_append_le {begun : Bool} {ls : List (Label n)} (h : run step s ls = some t)
    (hb : (s.cpu c).loc = .top ∨ begun = true) : ∃ begun', ((t.cpu c).loc = .top ∨ begun' = true) ∧
      ∀ ms, iterations c begun' t ms ≤ iterations c begun s (ls ++ ms) := by
  induction ls generalizing s begun with
  | nil =>
    cases h
    exact ⟨begun, hb, fun _ => Nat.le_refl _⟩
  | cons l ls ih =>
    obtain ⟨u, hu, h⟩ := run_cons_eq_some.mp h
    have hb' : (u.cpu c).loc = .top ∨ (tick c begun s u).2 = true := by
      unfold tick
      split_ifs <;> simp_all
    obtain ⟨begun', htop, hle⟩ := ih h hb'
    refine ⟨begun', htop, fun ms => ?_⟩
    rw [List.cons_append, iterations_cons hu]
    exact (hle ms).trans (Nat.le_add_left _ _)

/-- The state when process `p` has left CPU `c` through `yield()`. -/
def State.leaving (s : State n) (c : Fin n) (p : Slot) (P : Slot → Proc) : State n :=
  { s.dispatched c p (update P p (Op.yield.apply (P p))) with
    cpu := update s.cpu c { s.cpu c with loc := .back p, proc := some p, noff := 1 } }

/-- The state when CPU `c` is back at the head of its loop. -/
def State.yielded (s : State n) (c : Fin n) (p : Slot) (P : Slot → Proc) : State n :=
  { s with
    proc := update P p (Op.yield.apply (P p))
    cpu := update s.cpu c { s.cpu c with proc := none, loc := .top, nextIndex := p + 1 } }

/-- The step writes nothing but the visits of a scheduler, and what a turn of `p` writes. -/
def Turn (p : Slot) (s : State n) (l : Label n) (_ : State n) : Prop :=
  ∀ i op, writeOf s l = some (i, op) → op = .visit ∨ i = p ∧ (op = .dispatch ∨ op = .yield)

theorem turn_of_none {l : Label n} (h : writeOf s l = none) : Turn p s l t := fun i op hw => by
  rw [h] at hw
  cases hw

theorem yield_state (p : Proc) : (Op.yield.apply p).state = .runnable := rfl

/-- CPU `c` runs process `p` with stack `st`, and holds `p->lock` or not. -/
def State.thread (s : State n) (c : Fin n) (p : Slot) (P : Slot → Proc) (st : List Frame) (held : Bool) : State n :=
  { s with
    proc := P
    stack := update s.stack p st
    cpu := update s.cpu c { s.cpu c with loc := .switched p, proc := some p, noff := held.toNat }
    lock := Owner.update s.lock c (if held then some (.proc p) else none) [] }

/-- The process releases `p->lock`, is interrupted by the timer and yields. -/
theorem solo_yield (hfree : s.lock (.proc p) = none) (hstack : s.stack p = [.unlockSelf])
    (hnoff : (s.cpu c).noff = 0) : Path step (Turn p) (s.dispatched c p P) (s.leaving c p P) := by
  have hlock : Owner.update s.lock c (some (.proc p)) [] (.proc p) = some c := by simp [Owner.update]
  have hst : update s.stack p [.unlockSelf] = s.stack := by rw [← hstack, update_eq_self]
  have hrelease : Path step (Turn p) (s.dispatched c p P) (s.thread c p P [] false) := by
    refine Path.single (l := (c, .run)) ?_ (turn_of_none ?_)
    all_goals simp [step, writeOf, next, nextThread, exec, own, State.dispatched, State.thread, State.apply, State.move,
      State.setStack, hstack, hnoff, Owner.update_acquire_release hfree]
  have htimer : Path step (Turn p) (s.thread c p P [] false) (s.thread c p P [.want (.proc p), .yield] false) := by
    refine Path.single (l := (c, .timer)) ?_ (turn_of_none ?_)
    all_goals simp [step, writeOf, next, nextThread, interrupt, State.thread, State.apply, State.move, State.setStack]
  have hacquire : Path step (Turn p) (s.thread c p P [.want (.proc p), .yield] false)
      (s.thread c p P [.yield] true) := by
    refine Path.single (l := (c, .run)) ?_ (turn_of_none ?_)
    all_goals simp [step, writeOf, next, nextThread, interrupt, exec, State.thread, State.apply,
      State.move, State.setStack, hfree]
  have hyield : Path step (Turn p) (s.thread c p P [.yield] true)
      (s.thread c p (update P p (Op.yield.apply (P p))) [.sched, .unlockSelf] true) := by
    refine Path.single (l := (c, .run)) ?_ fun i op hw => ?_
    · simp [step, next, nextThread, exec, own, State.thread, State.apply, State.move, State.setStack]
    · simp only [writeOf, next, nextThread, exec, own, State.thread] at hw
      simp_all
  have hswtch : Path step (Turn p)
      (s.thread c p (update P p (Op.yield.apply (P p))) [.sched, .unlockSelf] true) (s.leaving c p P) := by
    refine Path.single (l := (c, .run)) ?_ (turn_of_none ?_)
    all_goals simp [step, writeOf, next, nextThread, State.thread, State.leaving, State.dispatched,
      State.apply, State.move, State.setStack, State.setCpu, hlock, yield_state, hst]
  exact (((hrelease.trans htimer).trans hacquire).trans hyield).trans hswtch

theorem solo_back (hfree : s.lock (.proc p) = none) (hnoff : (s.cpu c).noff = 0) :
    step (s.leaving c p P) (c, .run) = some (s.yielded c p P) ∧ writeOf (s.leaving c p P) (c, .run) = none := by
  simp [step, writeOf, next, State.dispatched, State.leaving, State.yielded, State.apply, State.move,
    State.setCpu, hnoff, Owner.update_acquire_release hfree]

/-- CPU `c` can run alone, and the RUNNABLE processes have nothing to do but to release `p->lock`. -/
structure Cycling (s : State n) (c : Fin n) : Prop where
  ready : Ready s c
  noff : (s.cpu c).noff = 0
  stack : ∀ j, (s.proc j).state = .runnable → s.stack j = [.unlockSelf]
  some : ∃ j, (s.proc j).state = .runnable

theorem Cycling.next (h : Cycling s c) (hp : Chosen s.proc (s.cpu c).nextIndex p) :
    Cycling (s.yielded c p (afterPass s.proc p)) c := by
  have hstate : ∀ j, ((s.yielded c p (afterPass s.proc p)).proc j).state = .runnable ↔
      (s.proc j).state = .runnable := by
    intro j
    by_cases hj : j = p
    · subst hj
      simp [State.yielded, yield_state, hp.runnable]
    · simp [State.yielded, afterPass, hj, schedulerVisit_state]
  have hprio : ∀ j, ((s.yielded c p (afterPass s.proc p)).proc j).priority ≤ (s.proc j).priority := by
    intro j
    have hle : (schedulerVisit (s.proc j)).priority ≤ (s.proc j).priority := by
      rcases schedulerVisit_priority (s.proc j) with h1 | h1 <;> omega
    by_cases hj : j = p
    · subst hj
      simpa [State.yielded, afterPass, Op.apply, schedulerDispatch] using hle
    · simpa [State.yielded, afterPass, hj] using hle
  refine ⟨⟨⟨?_, ?_⟩, h.ready.2.1, fun j hj => ?_⟩, ?_, fun j hj => h.stack j ((hstate j).mp hj), p, ?_⟩
  · simp [State.yielded]
  · simp [State.yielded, h.ready.1.2]
  · exact (hprio j).trans (h.ready.2.2 j ((hstate j).mp hj))
  · simp [State.yielded, h.noff]
  · exact (hstate p).mpr hp.runnable

/-- A turn of the chosen process is an iteration. -/
theorem Cycling.turn (h : Cycling s c) (hp : Chosen s.proc (s.cpu c).nextIndex p) :
    ∃ ls, run step s ls = Option.some (s.yielded c p (afterPass s.proc p)) ∧ Each step (Turn p) s ls ∧
      ∀ ms, iterations c false (s.yielded c p (afterPass s.proc p)) ms + 1 ≤ iterations c false s (ls ++ ms) := by
  obtain ⟨u, hscan, -, hw, hstep⟩ := h.ready.pass hp
  have hslice := solo_yield (P := afterPass s.proc p) (h.ready.2.1 p) (h.stack p hp.runnable) h.noff
  obtain ⟨hback, hnone⟩ := solo_back (P := afterPass s.proc p) (h.ready.2.1 p) h.noff
  have hpass : Path step (Turn p) s u := hscan.imp fun s l t _ hl i op hw => Or.inl (hl.2 i op hw)
  have hdispatch : Path step (Turn p) u (s.dispatched c p (afterPass s.proc p)) := by
    refine Path.single hstep fun i op hwr => ?_
    rw [hw] at hwr
    cases hwr
    exact Or.inr ⟨rfl, Or.inl rfl⟩
  obtain ⟨ls, hrun, hturn⟩ := (hpass.trans hdispatch).trans hslice
  refine ⟨ls ++ [(c, .run)], ?_, ?_, fun ms => ?_⟩
  · exact run_append_eq_some.mpr ⟨_, hrun, run_cons_eq_some.mpr ⟨_, hback, rfl⟩⟩
  · refine Each.append.mpr ⟨hturn, fun v hv => ?_⟩
    rw [hrun] at hv
    cases hv
    exact fun v _ => ⟨turn_of_none hnone, trivial⟩
  · have hfrom : (s.cpu c).loc = .top ∨ false = true := Or.inl h.ready.1.1
    obtain ⟨begun, hbegun, hle⟩ := iterations_append_le hrun hfrom
    have hloc : ((s.leaving c p (afterPass s.proc p)).cpu c).loc = .back p := by simp [State.leaving]
    have hloc' : ((s.yielded c p (afterPass s.proc p)).cpu c).loc = .top := by simp [State.yielded]
    rw [hloc] at hbegun
    obtain rfl := hbegun.resolve_left nofun
    have hlast := hle ((c, .run) :: ms)
    rw [iterations_cons hback] at hlast
    simp only [tick, hloc, hloc'] at hlast
    rw [List.append_assoc]
    simpa [Nat.add_comm] using hlast

/-- **A CPU that runs alone makes any number of iterations.** -/
theorem Cycling.many (h : Cycling s c) (k : Nat) : ∃ ls t, run step s ls = Option.some t ∧
    Each step (fun s l _ => ∀ w v, writeOf s l ≠ Option.some (w, .ksetpriority v)) s ls ∧
      k ≤ iterations c false s ls := by
  induction k generalizing s with
  | zero => exact ⟨[], s, rfl, trivial, Nat.zero_le _⟩
  | succ k ih =>
    obtain ⟨u, p, hp, -⟩ := solo_pass h.ready.2.2 h.ready.1.1 h.ready.1.2 h.ready.2.1 h.some
    obtain ⟨ls, hrun, hturn, hle⟩ := h.turn hp
    obtain ⟨ms, t, hrun', heach, hk⟩ := ih (h.next hp)
    refine ⟨ls ++ ms, t, run_append_eq_some.mpr ⟨_, hrun, hrun'⟩,
      Each.append.mpr ⟨hturn.imp fun s l t _ ht w v hw => ?_, fun v hv => ?_⟩, (Nat.succ_le_succ hk).trans (hle ms)⟩
    · rcases ht w _ hw with ht | ⟨-, ht | ht⟩ <;> cases ht
    · rw [hrun] at hv
      cases hv
      exact heach

end Cycle

theorem cycling_oneChild : Cycling oneChild 0 :=
  ⟨by decide +kernel, by decide, by decide +kernel, 0, by decide⟩

/-- The parent waits while its child has a turn. In a longer run, in which the CPU goes on for 565 iterations, it is
dispatched. -/
theorem no_starvation_oneChild :
    (∃ ls t, run step oneChild ls = some t ∧ 1 ≤ iterations 0 false oneChild ls ∧
      (iterations 0 false oneChild ls : Int) ≤ 50 * (oneChild.proc 0).priority + 64) ∧
    ∃ ls t, run step oneChild ls = some t ∧ 565 ≤ iterations 0 false oneChild ls ∧
      Sometime step (fun s l _ => writeOf s l = some (0, .dispatch)) oneChild ls := by
  have hs : Reachable oneChild := reachable_started.trans (run_eq_runD (by decide))
  constructor
  · obtain ⟨ls, hrun, hturn, hle⟩ := cycling_oneChild.turn (p := 1) (by decide)
    have hwait := runnable_run (w := 0) hs hrun (by decide) (hturn.imp fun s l t _ h hw => by simpa using h _ _ hw)
    refine ⟨ls, _, hrun, Nat.le_of_add_left_le (List.append_nil ls ▸ hle []), (no_starvation hs hrun 0 ?_).1 hwait⟩
    exact hturn.imp fun s l t _ h v hw => by simpa using h _ _ hw
  · obtain ⟨ls, t, hrun, heach, hmany⟩ := cycling_oneChild.many 565
    refine ⟨ls, t, hrun, hmany, (no_starvation hs hrun 0 (heach.imp fun _ _ _ _ h => h 0)).2 (by decide) ?_⟩
    have hten : (oneChild.proc 0).priority = 10 := by decide
    rw [hten]
    omega

end Xv6
