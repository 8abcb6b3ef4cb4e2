import Xv6.Trap.Invariant

/-!
# The invariant of the registers

* `kernelStep_inv`, `codeStep_inv`, `trap_inv` : each kind of step keeps `Inv`;
* `inv_of_reachable` : so it holds in every reachable state.
-/

namespace Xv6
open Function
namespace Trap
open Automaton

section
variable {n : Nat} {P : Type} [DecidableEq P] {s t : State n P} {c : Fin n} {x : Context} {d i : Nat} {zombie : Bool}
  {p : P} {h : Hart P} {y : Sstatus}

omit [DecidableEq P] in
theorem Inv.at (hi : Inv s) {pc : Pc P} (hpc : (s.hart c).pc = pc) : At c s.trapframe pc (s.hart c) (s.cpu c) :=
  hpc ▸ hi.hart c

/-! ## `push_off()` and `pop_off()` -/

theorem pushIntena_inv (hi : Inv s) {old : Bool} (hpc : (s.hart c).pc = .pushIntena x d old)
    (h : kernelStep s c = some t) : Inv t := by
  have hat := hi.at hpc
  obtain ⟨hfits, hsepc, hold⟩ := hat.locals
  simp only [kernelStep, hpc, hat.tp rfl] at h
  by_cases hzero : (s.cpu c).noff = 0
  · rw [if_pos hzero] at h
    cases h
    have hd : d = 0 := hat.noff.symm.trans hzero
    exact hi.setCpu { hat with
      intena := fun b hb => (hold hd).trans (Option.some.inj hb)
      locals := ⟨hfits, hsepc⟩ }
  · rw [if_neg hzero] at h
    cases h
    have hd : d ≠ 0 := fun hd => hzero (hat.noff.trans hd)
    obtain ⟨e, rfl⟩ := Nat.exists_eq_succ_of_ne_zero hd
    exact hi.goto { hat with locals := ⟨hfits, hsepc⟩ }

theorem pushNoff_inv (hi : Inv s) (hpc : (s.hart c).pc = .pushNoff x d) (h : kernelStep s c = some t) :
    Inv t := by
  have hat := hi.at hpc
  simp only [kernelStep, hpc, hat.tp rfl] at h
  cases h
  exact hi.setCpu { hat with noff := congrArg (· + 1) hat.noff }

theorem popNoff_inv (hi : Inv s) (hpc : (s.hart c).pc = .popNoff x d i) (h : kernelStep s c = some t) :
    Inv t := by
  have hat := hi.at hpc
  obtain ⟨hfits, hsepc, rfl⟩ := hat.locals
  have hnoff : (s.cpu c).noff = d + 1 := hat.noff
  simp only [kernelStep, hpc] at h
  rw [if_neg (by omega)] at h
  cases h
  exact hi.setCpu { hat with noff := by rw [hnoff]; rfl }

theorem popOn_inv (hi : Inv s) (hpc : (s.hart c).pc = .popOn x d i) (h : kernelStep s c = some t) :
    Inv t := by
  have hat := hi.at hpc
  obtain ⟨hfits, hsepc, rfl⟩ := hat.locals
  have hnoff : (s.cpu c).noff = d := hat.noff
  have hintena : (s.cpu c).intena = x.on := hat.intena _ rfl
  simp only [kernelStep, hpc, hnoff, hintena] at h
  cases h
  by_cases hon : d = 0 ∧ x.on
  · obtain ⟨rfl, hx⟩ := hon
    refine hi.setHart rfl ?_
    rw [if_pos ⟨rfl, hx⟩]
    exact { hat with sie := hx.symm, intena := nofun, locals := ⟨hfits, hsepc⟩ }
  · refine hi.setHart rfl ?_
    rw [if_neg hon]
    cases d with
    | zero =>
      have hx : x.on = false := Bool.eq_false_iff.mpr fun hx => hon ⟨rfl, hx⟩
      exact { hat with
        sie := hat.sie.trans hx.symm
        intena := nofun
        locals := ⟨hfits, hsepc⟩ }
    | succ d => exact { hat with locals := ⟨hfits, hsepc⟩ }

theorem pushOff_inv (hi : Inv s) (hpc : (s.hart c).pc = .code x d) (h : codeStep s c x d .pushOff = some t) :
    Inv t := by
  have hat := hi.at hpc
  obtain ⟨hfits, hsepc⟩ := hat.locals
  cases h
  cases d with
  | zero => exact hi.setHart rfl { hat with sie := rfl, intena := nofun, locals := ⟨hfits, hsepc, fun _ => hat.sie⟩ }
  | succ d => exact hi.setHart rfl { hat with sie := rfl, locals := ⟨hfits, hsepc, nofun⟩ }

theorem popOff_inv (hi : Inv s) (hpc : (s.hart c).pc = .code x d) (h : codeStep s c x d .popOff = some t) :
    Inv t := by
  have hat := hi.at hpc
  obtain ⟨hfits, hsepc⟩ := hat.locals
  cases d with
  | zero => cases h
  | succ d =>
    have hsie : (s.hart c).sstatus.sie = false := hat.sie
    simp only [codeStep, hsie, hat.tp rfl] at h
    cases h
    exact hi.goto { hat with locals := ⟨hfits, hsepc, rfl⟩ }

/-! ## `sched()` and `scheduler()` -/

theorem sched_inv (hi : Inv s) (hpc : (s.hart c).pc = .sched x zombie) (h : kernelStep s c = some t) :
    Inv t := by
  have hat := hi.at hpc
  obtain ⟨hfits, hsched, hrun⟩ := hat.locals
  have hnoff : (s.cpu c).noff = 1 := hat.noff
  have hsie : (s.hart c).sstatus.sie = false := hat.sie
  have hintena : (s.cpu c).intena = x.on := hat.intena _ rfl
  simp only [kernelStep, hpc, hat.tp rfl, hnoff, hsie, hintena] at h
  cases h
  exact hi.goto { hat with intena := nofun, locals := ⟨hfits, hsched, hrun, rfl⟩ }

omit [DecidableEq P] in
/-- Nothing in a context of a process depends on the hart or on the process. -/
theorem Context.resumable (hfits : x.Fits i (some p)) (hsched : x.schedules (some p)) :
    Resumable (.resume x x.on : Pc P) := by
  refine .sched fun j q => ?_
  cases x with
  | entry => cases hsched
  | handler => exact ⟨Option.some_ne_none q, rfl⟩
  | syscall k => exact ⟨Option.some_ne_none q, rfl⟩
  | scheduler i => cases hsched
  | kerneltrap a y =>
    obtain ⟨ha, hy⟩ := hfits
    cases a with
    | kernel k => exact ⟨⟨Option.some_ne_none q, hy⟩, rfl⟩
    | idle i => cases ha.1
    | user v => cases ha
    | other => cases ha

section
variable (hi : Inv s)
include hi

/-- **The rule for leaving a process.** -/
theorem Inv.switchOut {y : Saved P} (hp : (s.hart c).run = some p) (hy : ∀ pc, y = .parked pc → Resumable pc)
    (hrun : h.run = none) (hok : Ok c s.trapframe h (s.cpu c)) : Inv ((s.setContext p y).setHart c h) := by
  have hrund : ∀ {d q}, (((s.setContext p y).setHart c h).hart d).run = some q → d ≠ c ∧ (s.hart d).run = some q := by
    intro d q hq
    by_cases hd : d = c
    · rw [hd, setHart_self, hrun] at hq
      cases hq
    · rw [setHart_ne _ _ hd] at hq
      exact ⟨hd, hq⟩
  refine ⟨fun d => ?_, fun {d q} hq => ?_, fun {d e q} hd he => ?_, fun {q pc} hq => ?_⟩
  · by_cases hd : d = c
    · rw [hd, setHart_self]
      exact hok
    · rw [setHart_ne _ _ hd]
      exact hi.hart d
  · obtain ⟨hd, hq⟩ := hrund hq
    have hne : q ≠ p := fun hqp => hd (hi.unique hq (hqp ▸ hp))
    exact (update_of_ne hne ..).trans (hi.running hq)
  · exact hi.unique (hrund hd).2 (hrund he).2
  · by_cases hqp : q = p
    · rw [hqp, setHart_context, setContext_self] at hq
      exact hy pc hq
    · exact hi.parked ((update_of_ne hqp ..).symm.trans hq)

theorem swtch_inv {intena : Bool} (hpc : (s.hart c).pc = .swtch x zombie intena) (h : kernelStep s c = some t) :
    Inv t := by
  have hat := hi.at hpc
  obtain ⟨hfits, hsched, hrun, rfl⟩ := hat.locals
  obtain ⟨p, hp⟩ := Option.ne_none_iff_exists'.mp hrun
  simp only [kernelStep, hpc, hat.tp rfl, hat.context hrun, hp] at h
  cases h
  rw [hp] at hfits hsched
  refine hi.switchOut hp (fun pc hy => ?_) rfl { hat with
    tp := fun _ => rfl
    intena := nofun
    proc := nofun
    locals := ⟨rfl, rfl⟩
    context := fun hc => absurd rfl hc }
  cases zombie with
  | true => cases hy
  | false =>
    cases hy
    exact Context.resumable hfits hsched

theorem resume_inv {intena : Bool} (hpc : (s.hart c).pc = .resume x intena) (h : kernelStep s c = some t) :
    Inv t := by
  have hat := hi.at hpc
  obtain ⟨hfits, hsched, rfl⟩ := hat.locals
  simp only [kernelStep, hpc, hat.tp rfl] at h
  cases h
  refine hi.setCpu { hat with intena := fun b hb => Option.some.inj hb, locals := ⟨hfits, fun hx => ?_⟩ }
  rw [hx] at hsched
  cases hsched

/-- **The rule for entering a process.** -/
theorem Inv.switchIn {pc : Pc P} {cpu : Cpu P} (hp : s.context p = .parked pc) (hrun : h.run = some p)
    (hok : Ok c s.trapframe h cpu) : Inv (((s.setCpu c cpu).setContext p .running).setHart c h) := by
  have hfree : ∀ d, (s.hart d).run ≠ some p := fun d hd => by
    rw [hi.running hd] at hp
    cases hp
  have hrund : ∀ {d q}, ((((s.setCpu c cpu).setContext p .running).setHart c h).hart d).run = some q →
      (d = c ∧ q = p) ∨ (d ≠ c ∧ (s.hart d).run = some q) := by
    intro d q hq
    by_cases hd : d = c
    · rw [hd, setHart_self, hrun] at hq
      exact .inl ⟨hd, (Option.some.inj hq).symm⟩
    · rw [setHart_ne _ _ hd] at hq
      exact .inr ⟨hd, hq⟩
  refine ⟨fun d => ?_, fun {d q} hq => ?_, fun {d e q} hd he => ?_, fun {q pc} hq => ?_⟩
  · by_cases hd : d = c
    · rw [hd, setHart_self, setHart_cpu, setContext_cpu, setCpu_self]
      exact hok
    · rw [setHart_ne _ _ hd, setHart_cpu, setContext_cpu, setCpu_ne _ _ fun h => hd (Fin.ext h)]
      exact hi.hart d
  · rcases hrund hq with ⟨-, rfl⟩ | ⟨-, hq⟩
    · exact update_self ..
    · have hne : q ≠ p := fun hqp => hfree d (hqp ▸ hq)
      exact (update_of_ne hne ..).trans (hi.running hq)
  · rcases hrund hd with ⟨hdc, hqp⟩ | ⟨hdc, hd⟩
    · rcases hrund he with ⟨hec, -⟩ | ⟨-, he⟩
      · rw [hdc, hec]
      · exact absurd (hqp ▸ he) (hfree e)
    · rcases hrund he with ⟨-, hqp⟩ | ⟨-, he⟩
      · exact absurd (hqp ▸ hd) (hfree d)
      · exact hi.unique hd he
  · by_cases hqp : q = p
    · rw [hqp, setHart_context, setContext_self] at hq
      cases hq
    · exact hi.parked ((update_of_ne hqp ..).symm.trans hq)

theorem enter_inv (hpc : (s.hart c).pc = .enter i p) (h : kernelStep s c = some t) : Inv t := by
  have hat := hi.at hpc
  obtain ⟨hrun, rfl⟩ := hat.locals
  have hproc : (s.cpu c).proc = some p := hat.proc _ rfl
  have hintena : (s.cpu c).intena = false := hat.intena _ rfl
  cases hp : s.context p with
  | free => simp only [kernelStep, hpc, hp] at h; cases h
  | running => simp only [kernelStep, hpc, hp] at h; cases h
  | parked pc =>
    simp only [kernelStep, hpc, hp] at h
    cases h
    refine hi.switchIn hp rfl ?_
    cases hi.parked hp with
    | forkret =>
      exact { hat with
        intena := fun b hb => hintena.trans (Option.some.inj hb)
        proc := fun r hr => hproc.trans (Option.some.inj hr)
        locals := ⟨Option.some_ne_none p, nofun⟩
        context := fun _ => rfl }
    | @sched x hx =>
      exact { hat with
        intena := nofun
        proc := fun r hr => hproc.trans (Option.some.inj hr)
        locals := ⟨(hx c p).1, (hx c p).2, rfl⟩
        context := fun _ => rfl }

theorem back_inv (hpc : (s.hart c).pc = .back i) (h : kernelStep s c = some t) : Inv t := by
  have hat := hi.at hpc
  simp only [kernelStep, hpc, hat.tp rfl] at h
  cases h
  exact hi.setCpu { hat with intena := fun b hb => Option.some.inj hb }

theorem clear_inv (hpc : (s.hart c).pc = .clear i) (h : kernelStep s c = some t) : Inv t := by
  have hat := hi.at hpc
  obtain ⟨hrun, rfl⟩ := hat.locals
  simp only [kernelStep, hpc] at h
  cases h
  exact hi.setCpu { hat with
    proc := fun r hr => hrun.symm.trans (Option.some.inj hr)
    locals := ⟨⟨hrun, rfl⟩, nofun⟩ }

theorem idleOn_inv (hpc : (s.hart c).pc = .idleOn i) (h : kernelStep s c = some t) : Inv t := by
  have hat := hi.at hpc
  simp only [kernelStep, hpc] at h
  cases h
  exact hi.setHart rfl { hat with sie := rfl }

theorem idleOff_inv (hpc : (s.hart c).pc = .idleOff i) (h : kernelStep s c = some t) : Inv t := by
  have hat := hi.at hpc
  simp only [kernelStep, hpc] at h
  cases h
  exact hi.setHart rfl { hat with sie := rfl, locals := ⟨hat.locals, nofun⟩ }

end

/-! ## Traps from user space and the return -/

section
variable (hi : Inv s)
include hi

theorem uservec_inv (hpc : (s.hart c).pc = .uservec) (h : kernelStep s c = some t) : Inv t := by
  have hat := hi.at hpc
  obtain ⟨⟨p, hrun, hid⟩, hspp, hsepc⟩ := hat.locals
  simp only [kernelStep, hpc, hrun] at h
  cases h
  exact hi.setTrapframe hrun hrun.symm { hat with
    tp := fun _ => hid
    proc := fun r hr => hat.proc r (hrun ▸ hr)
    locals := ⟨Option.some_ne_none p, hspp, hsepc⟩
    context := fun _ => hat.context (hrun ▸ Option.some_ne_none p) }

theorem usertrap_inv (hpc : (s.hart c).pc = .usertrap) (h : kernelStep s c = some t) : Inv t := by
  have hat := hi.at hpc
  obtain ⟨hrun, hspp, hsepc⟩ := hat.locals
  simp only [kernelStep, hpc, hspp] at h
  cases h
  exact hi.setHart rfl { hat with stvec := rfl, intena := nofun, locals := ⟨hrun, fun _ => hsepc⟩ }

theorem prepStvec_inv (hpc : (s.hart c).pc = .prepStvec) (h : kernelStep s c = some t) : Inv t := by
  have hat := hi.at hpc
  simp only [kernelStep, hpc] at h
  cases h
  exact hi.setHart rfl { hat with stvec := rfl }

theorem prepHartid_inv (hpc : (s.hart c).pc = .prepHartid) (h : kernelStep s c = some t) : Inv t := by
  have hat := hi.at hpc
  obtain ⟨p, hrun⟩ := Option.ne_none_iff_exists'.mp hat.locals
  simp only [kernelStep, hpc, hrun, hat.tp rfl] at h
  cases h
  refine hi.setTrapframe hrun rfl { hat with locals := ⟨p, hrun, ?_⟩ }
  rw [update_self]

theorem prepSstatus_inv (hpc : (s.hart c).pc = .prepSstatus) (h : kernelStep s c = some t) : Inv t := by
  have hat := hi.at hpc
  have hsie : (s.hart c).sstatus.sie = false := hat.sie
  simp only [kernelStep, hpc, hsie] at h
  cases h
  exact hi.goto { hat with locals := ⟨hat.locals, rfl⟩ }

theorem prepWrite_inv (hpc : (s.hart c).pc = .prepWrite y) (h : kernelStep s c = some t) : Inv t := by
  have hat := hi.at hpc
  obtain ⟨hhome, rfl⟩ := hat.locals
  simp only [kernelStep, hpc] at h
  cases h
  exact hi.setHart rfl { hat with sie := rfl, locals := ⟨hhome, rfl⟩ }

theorem prepSepc_inv (hpc : (s.hart c).pc = .prepSepc) (h : kernelStep s c = some t) : Inv t := by
  have hat := hi.at hpc
  obtain ⟨hhome, hsstatus⟩ := hat.locals
  obtain ⟨p, hrun, -⟩ := hhome
  simp only [kernelStep, hpc, hrun] at h
  cases h
  exact hi.setHart hrun.symm { hat with
    proc := fun r hr => hat.proc r (hrun ▸ hr)
    locals := ⟨hrun ▸ hat.locals.1, hsstatus, _, rfl⟩
    context := fun _ => hat.context (hrun ▸ Option.some_ne_none p) }

theorem userret_inv (hpc : (s.hart c).pc = .userret) (h : kernelStep s c = some t) : Inv t := by
  have hat := hi.at hpc
  obtain ⟨p, hrun, -⟩ := hat.locals.1
  simp only [kernelStep, hpc, hrun] at h
  cases h
  exact hi.setHart hrun.symm { hat with
    tp := nofun
    proc := fun r hr => hat.proc r (hrun ▸ hr)
    locals := hrun ▸ hat.locals
    context := fun _ => hat.context (hrun ▸ Option.some_ne_none p) }

theorem userSret_inv (hpc : (s.hart c).pc = .userSret) (h : kernelStep s c = some t) : Inv t := by
  have hat := hi.at hpc
  obtain ⟨hhome, hsstatus, v, hsepc⟩ := hat.locals
  simp only [kernelStep, hpc, sret, hsstatus, hsepc] at h
  cases h
  exact hi.setHart rfl { hat with sie := rfl, locals := hhome }

end

/-! ## Traps from the kernel -/

theorem kernelvec_inv (hi : Inv s) (hpc : (s.hart c).pc = .kernelvec) (h : kernelStep s c = some t) : Inv t := by
  have hat := hi.at hpc
  simp only [kernelStep, hpc] at h
  cases h
  exact hi.goto { hat with }

theorem trapCheck_inv (hi : Inv s) {a : Addr} (hpc : (s.hart c).pc = .trapCheck a y) (h : kernelStep s c = some t) :
    Inv t := by
  have hat := hi.at hpc
  obtain ⟨ha, rfl⟩ := hat.locals
  have hsie : (s.hart c).sstatus.sie = false := hat.sie
  simp only [kernelStep, hpc, hsie] at h
  cases h
  exact hi.goto { hat with intena := nofun, locals := ⟨⟨ha, rfl⟩, nofun⟩ }

theorem trapSstatus_inv (hi : Inv s) (hpc : (s.hart c).pc = .trapSstatus y) (h : kernelStep s c = some t) : Inv t := by
  have hat := hi.at hpc
  obtain ⟨ha, rfl⟩ := hat.locals
  simp only [kernelStep, hpc] at h
  cases h
  exact hi.setHart rfl { hat with sie := rfl, locals := ⟨ha, rfl⟩ }

theorem kernelSret_inv (hi : Inv s) (hpc : (s.hart c).pc = .kernelSret) (h : kernelStep s c = some t) : Inv t := by
  have hat := hi.at hpc
  obtain ⟨ha, hsstatus⟩ := hat.locals
  simp only [kernelStep, hpc, sret, hsstatus] at h
  cases h
  refine hi.setHart rfl ?_
  cases hsepc : (s.hart c).sepc with
  | kernel k =>
    rw [hsepc] at ha
    exact { hat with sie := rfl, intena := nofun, locals := ⟨ha, nofun⟩ }
  | idle i =>
    rw [hsepc] at ha
    exact { hat with sie := rfl, locals := ha }
  | user v => rw [hsepc] at ha; cases ha
  | other => rw [hsepc] at ha; cases ha

omit [DecidableEq P] in
/-- A trap is taken in user space, or where the kernel can be interrupted. -/
theorem trap_cases (hi : Inv s) (htrap : trap (s.hart c) = some h) :
    h = { s.hart c with
      pc := (s.hart c).pc.vector.pc, sepc := (s.hart c).pc.addr, stvec := (s.hart c).pc.vector
      sstatus := { sie := false, spie := (s.hart c).pc.on, spp := (s.hart c).pc.mode } } ∧
    ((∃ v, (s.hart c).pc = .user v) ∨ (∃ i, (s.hart c).pc = .idleOff i) ∨ ∃ k, (s.hart c).pc =
      .code (.syscall k) 0) := by
  have hsie := (hi.hart c).sie
  have hvec := (hi.hart c).stvec
  unfold trap at htrap
  rw [hsie] at htrap
  obtain ⟨hen, htrap⟩ := Option.ite_none_right_eq_some.mp htrap
  refine ⟨by rw [← Option.some.inj htrap, hvec], ?_⟩
  cases hpc : (s.hart c).pc
  case user v => exact .inl ⟨v, rfl⟩
  case idleOff i => exact .inr (.inl ⟨i, rfl⟩)
  case code x d =>
    rw [hpc] at hen
    cases d with
    | succ d => rcases hen with hen | hen <;> cases hen
    | zero =>
      cases x with
      | syscall k => exact .inr (.inr ⟨k, rfl⟩)
      | _ => rcases hen with hen | hen <;> cases hen
  all_goals
    rw [hpc] at hen
    rcases hen with hen | hen <;> cases hen

omit [DecidableEq P] in
theorem trap_inv (hi : Inv s) (htrap : trap (s.hart c) = some h) : Inv (s.setHart c h) := by
  obtain ⟨rfl, ⟨v, hpc⟩ | ⟨i, hpc⟩ | ⟨k, hpc⟩⟩ := trap_cases hi htrap
  all_goals
    have hat := hi.at hpc
    rw [hpc]
    refine hi.setHart rfl ?_
  · exact { hat with sie := rfl, stvec := rfl, tp := nofun, locals := ⟨hat.locals, rfl, v, rfl⟩ }
  · exact { hat with sie := rfl, stvec := rfl, locals := ⟨hat.locals, rfl⟩ }
  · exact { hat with sie := rfl, stvec := rfl, locals := ⟨hat.locals.1, rfl⟩ }

/-! ## The code in between -/

omit [DecidableEq P] in
theorem schedCall_inv (hi : Inv s) (hpc : (s.hart c).pc = .code x 1) (hx : x.schedules (s.hart c).run) :
    Inv (s.goto c (.sched x zombie)) := by
  have hat := hi.at hpc
  refine hi.goto { hat with locals := ⟨hat.locals.1, hx, ?_⟩ }
  cases x with
  | entry => cases hx
  | handler => exact hat.locals.1
  | syscall k => exact hat.locals.1
  | scheduler i => cases hx
  | kerneltrap a y => exact Option.isSome_iff_ne_none.mp hx

theorem leave_inv (hi : Inv s) (hpc : (s.hart c).pc = .code x 0) (h : leave s c x = some t) : Inv t := by
  have hat := hi.at hpc
  obtain ⟨hfits, hsepc⟩ := hat.locals
  cases x with
  | entry =>
    obtain ⟨p, hrun⟩ := Option.ne_none_iff_exists'.mp hfits
    obtain ⟨v, hv⟩ := hsepc rfl
    simp only [leave, hrun, hv] at h
    cases h
    exact hi.setTrapframe hrun rfl { hat with locals := ⟨hfits, nofun⟩ }
  | handler =>
    cases h
    exact hi.setHart rfl { hat with sie := rfl, locals := hfits }
  | syscall k =>
    cases h
    exact hi.setHart rfl { hat with sie := rfl, locals := hfits }
  | kerneltrap a y =>
    cases h
    exact hi.setHart rfl { hat with locals := hfits }
  | scheduler i =>
    cases h
    exact hi.goto { hat with locals := hfits }

theorem setEpc_inv (hi : Inv s) {v : Nat} (hpc : (s.hart c).pc = .code x d) (hrun : (s.hart c).run = some p) :
    Inv (s.setTrapframe p { s.trapframe p with epc := v }) := by
  have hat := hi.at hpc
  have hown : Inv ((s.setTrapframe p { s.trapframe p with epc := v }).setHart c (s.hart c)) :=
    hi.setTrapframe hrun rfl (by
      rw [Ok, hpc]
      exact { hat with })
  rwa [State.setHart, setTrapframe_hart, update_eq_self] at hown

theorem fork_inv (hi : Inv s) (tf : Trapframe) (hp : s.context p = .free) :
    Inv ((s.setTrapframe p tf).setContext p (.parked (.code .handler 1))) := by
  have hne : ∀ {d q}, (s.hart d).run = some q → q ≠ p := by
    rintro d q hq rfl
    rw [hi.running hq] at hp
    cases hp
  refine ⟨fun d => (hi.hart d).congr fun q hq => update_of_ne (hne hq) .., fun {d q} hq => ?_, hi.unique,
    fun {q pc} hq => ?_⟩
  · exact (update_of_ne (hne hq) ..).trans (hi.running hq)
  · by_cases hqp : q = p
    · rw [hqp, setContext_self] at hq
      cases hq
      exact .forkret
    · exact hi.parked ((update_of_ne hqp ..).symm.trans hq)

omit [DecidableEq P] in
theorem dispatch_inv (hi : Inv s) (p : P) (hpc : (s.hart c).pc = .code (.scheduler i) 1) :
    Inv ((s.setCpu i { s.cpu i with proc := some p }).goto c (.enter i p)) := by
  have hat := hi.at hpc
  obtain ⟨⟨hrun, rfl⟩, -⟩ := hat.locals
  exact hi.setCpu { hat with proc := fun r hr => Option.some.inj hr, locals := ⟨hrun, rfl⟩ }

theorem codeStep_inv (hi : Inv s) {a : Act P} (hpc : (s.hart c).pc = .code x d) (h : codeStep s c x d a = some t) :
    Inv t := by
  have hat := hi.at hpc
  cases a with
  | pushOff => exact pushOff_inv hi hpc h
  | popOff => exact popOff_inv hi hpc h
  | sched =>
    simp only [codeStep] at h
    obtain ⟨⟨rfl, hx⟩, ht⟩ := Option.ite_none_right_eq_some.mp h
    cases ht
    exact schedCall_inv hi hpc hx
  | exit =>
    simp only [codeStep] at h
    obtain ⟨⟨rfl, hx⟩, ht⟩ := Option.ite_none_right_eq_some.mp h
    cases ht
    refine schedCall_inv hi hpc ?_
    cases x with
    | handler => rfl
    | syscall k => rfl
    | _ => cases hx
  | syscall k =>
    obtain ⟨⟨rfl, rfl⟩, ht⟩ := Option.ite_none_right_eq_some.mp h
    cases ht
    exact hi.setHart rfl { hat with sie := rfl, locals := ⟨hat.locals.1, nofun⟩ }
  | kernel k =>
    cases x with
    | syscall j =>
      cases h
      cases d with
      | zero => exact hi.goto { hat with locals := ⟨hat.locals.1, nofun⟩ }
      | succ d => exact hi.goto { hat with locals := ⟨hat.locals.1, nofun⟩ }
    | _ => cases h
  | setEpc v =>
    simp only [codeStep] at h
    split at h
    case h_1 hrun => cases h; exact setEpc_inv hi hpc hrun
    case h_2 hrun => cases h; exact setEpc_inv hi hpc hrun
    case h_3 => cases h
  | fork p =>
    simp only [codeStep] at h
    split at h
    case h_1 hp => cases h; exact fork_inv hi _ hp
    case h_2 => cases h
  | dispatch p =>
    cases x with
    | scheduler i =>
      obtain ⟨rfl, ht⟩ := Option.ite_none_right_eq_some.mp h
      cases ht
      exact dispatch_inv hi p hpc
    | _ => cases h
  | leave =>
    obtain ⟨rfl, ht⟩ := Option.ite_none_right_eq_some.mp h
    exact leave_inv hi hpc ht
  | go => cases h
  | trap => cases h
  | user v tp => cases h

theorem kernelStep_inv (hi : Inv s) (h : kernelStep s c = some t) : Inv t := by
  cases hpc : (s.hart c).pc
  case uservec => exact uservec_inv hi hpc h
  case usertrap => exact usertrap_inv hi hpc h
  case pushIntena => exact pushIntena_inv hi hpc h
  case pushNoff => exact pushNoff_inv hi hpc h
  case popNoff => exact popNoff_inv hi hpc h
  case popOn => exact popOn_inv hi hpc h
  case sched => exact sched_inv hi hpc h
  case swtch => exact swtch_inv hi hpc h
  case resume => exact resume_inv hi hpc h
  case prepStvec => exact prepStvec_inv hi hpc h
  case prepHartid => exact prepHartid_inv hi hpc h
  case prepSstatus => exact prepSstatus_inv hi hpc h
  case prepWrite => exact prepWrite_inv hi hpc h
  case prepSepc => exact prepSepc_inv hi hpc h
  case userret => exact userret_inv hi hpc h
  case userSret => exact userSret_inv hi hpc h
  case kernelvec => exact kernelvec_inv hi hpc h
  case trapCheck => exact trapCheck_inv hi hpc h
  case trapSstatus => exact trapSstatus_inv hi hpc h
  case kernelSret => exact kernelSret_inv hi hpc h
  case idleOn => exact idleOn_inv hi hpc h
  case idleOff => exact idleOff_inv hi hpc h
  case enter => exact enter_inv hi hpc h
  case back => exact back_inv hi hpc h
  case clear => exact clear_inv hi hpc h
  all_goals
    simp only [kernelStep, hpc] at h
    cases h

/-! ## All steps -/

/-- What a step is: a trap, user code, the next instruction, or a choice of the code in between. -/
theorem step_cases {l : Fin n × Act P} (h : step s l = some t) :
    (∃ k, trap (s.hart l.1) = some k ∧ t = s.setHart l.1 k) ∨
      (∃ u v tp, (s.hart l.1).pc = .user u ∧ t = s.setHart l.1 { s.hart l.1 with pc := .user v, tp := tp }) ∨
      kernelStep s l.1 = some t ∨ ∃ x d, (s.hart l.1).pc = .code x d ∧ codeStep s l.1 x d l.2 = some t := by
  obtain ⟨c, a⟩ := l
  unfold step at h
  split at h
  case h_1 =>
    obtain ⟨k, hk, rfl⟩ := Option.map_eq_some_iff.mp h
    exact .inl ⟨k, hk, rfl⟩
  case h_2 v tp _ =>
    split at h
    case h_1 u hpc =>
      cases h
      exact .inr (.inl ⟨u, v, tp, hpc, rfl⟩)
    case h_2 => cases h
  case h_3 => exact .inr (.inr (.inl h))
  case h_4 =>
    split at h
    case h_1 x d hpc => exact .inr (.inr (.inr ⟨x, d, hpc, h⟩))
    case h_2 => cases h

theorem step_inv (hi : Inv s) {l : Fin n × Act P} (h : step s l = some t) : Inv t := by
  rcases step_cases h with ⟨k, hk, rfl⟩ | ⟨u, v, tp, hpc, rfl⟩ | h | ⟨x, d, hpc, h⟩
  · exact trap_inv hi hk
  · have hat := hi.at hpc
    exact hi.setHart rfl { hat with tp := nofun }
  · exact kernelStep_inv hi h
  · exact codeStep_inv hi hpc h

theorem init_inv (first : P) : Inv (State.init n first) := by
  refine ⟨fun c => ?_, nofun, nofun, fun {p pc} hp => ?_⟩
  · exact
      { sie := rfl, noff := rfl, stvec := rfl, tp := fun _ => rfl, intena := nofun
        proc := fun r hr => Option.some.inj hr, locals := ⟨rfl, rfl⟩, context := fun h => absurd rfl h }
  · change (if p = first then Saved.parked (.code .handler 1) else .free) = .parked pc at hp
    split at hp
    · cases hp
      exact .forkret
    · cases hp

/-- **The registers of every hart hold what they should.** -/
theorem inv_of_reachable {first : P} (h : Reachable first s) : Inv s :=
  Automaton.Reachable.invariant (init_inv first) (fun _ _ _ _ hi ht => step_inv hi ht) h

end

end Trap
end Xv6
