import Mathlib.Data.List.Nodup
import Mathlib.Logic.Function.Basic

/-!
# Exact ownership

A set of blocks is handed out by an allocator. `own p` is the block that the place `p` refers to; `held` are the blocks
that are in the hands of a running operation and in no place.

* `Exact used own held` : the used blocks are those of the places and the held ones, each exactly once;
* `Exact.embed`, `Exact.restrict` : the places under other names, with or without empty ones;
* `Exact.replace` : the places of blocks that were in use before;
* `Exact.alloc`, `Exact.free` : a block enters or leaves the hands of the operation;
* `Exact.attach`, `Exact.detach`, `Exact.detachAll` : a held block is put into a place, or taken from it.
-/

namespace Alloc
open Function

section
variable {B P : Type*}

structure Exact (used : B → Prop) (own : P → Option B) (held : List B) : Prop where
  used_iff : ∀ b, used b ↔ (∃ p, own p = some b) ∨ b ∈ held
  once : ∀ {p q b}, own p = some b → own q = some b → p = q
  not_held : ∀ {p b}, own p = some b → b ∉ held
  nodup : held.Nodup

namespace Exact
variable {used used' : B → Prop} {own own' : P → Option B} {held : List B} {b : B} {p : P}

section
variable (h : Exact used own held)
include h

theorem used_of_own (hp : own p = some b) : used b := (h.used_iff b).mpr (.inl ⟨p, hp⟩)

theorem used_of_held (hb : b ∈ held) : used b := (h.used_iff b).mpr (.inr hb)

theorem congr_used (hu : ∀ c, used' c ↔ used c) : Exact used' own held :=
  ⟨fun c => (hu c).trans (h.used_iff c), h.once, h.not_held, h.nodup⟩

theorem congr_own (ho : ∀ q, own' q = own q) : Exact used own' held := by
  rwa [show own' = own from funext ho]

/-- The places under other names, with empty ones among them. -/
theorem embed {P' : Type*} {own' : P' → Option B} (e : P → P') (he : ∀ p, own' (e p) = own p)
    (hrange : ∀ p' b, own' p' = some b → ∃ p, e p = p') : Exact used own' held where
  used_iff b := by
    rw [h.used_iff]
    refine or_congr ⟨fun ⟨p, hp⟩ => ⟨e p, (he p).trans hp⟩, fun ⟨p', hp'⟩ => ?_⟩ Iff.rfl
    obtain ⟨p, rfl⟩ := hrange p' b hp'
    exact ⟨p, (he p).symm.trans hp'⟩
  once {p' q' b} hp' hq' := by
    obtain ⟨p, rfl⟩ := hrange p' b hp'
    obtain ⟨q, rfl⟩ := hrange q' b hq'
    rw [he] at hp' hq'
    rw [h.once hp' hq']
  not_held {p' b} hp' := by
    obtain ⟨p, rfl⟩ := hrange p' b hp'
    rw [he] at hp'
    exact h.not_held hp'
  nodup := h.nodup

/-- Places that are empty are left out. -/
theorem restrict {P' : Type*} {own' : P' → Option B} (e : P' → P) (he : Function.Injective e)
    (hown : ∀ p', own' p' = own (e p')) (hrange : ∀ p b, own p = some b → ∃ p', e p' = p) : Exact used own' held where
  used_iff b := by
    rw [h.used_iff]
    refine or_congr ⟨fun ⟨p, hp⟩ => ?_, fun ⟨p', hp'⟩ => ⟨e p', (hown p').symm.trans hp'⟩⟩ Iff.rfl
    obtain ⟨p', rfl⟩ := hrange p b hp
    exact ⟨p', (hown p').trans hp⟩
  once {p' q' b} hp' hq' := by
    rw [hown] at hp' hq'
    exact he (h.once hp' hq')
  not_held {p' b} hp' := by
    rw [hown] at hp'
    exact h.not_held hp'
  nodup := h.nodup

end

/-- Some of the blocks were exactly those in use before; the places they had then take the place of those they have. -/
theorem replace {A P' : Type*} {a : A → Option B} {old : P' → Option B} (h : Exact used' (Sum.elim a old) held)
    (hown : Exact used own []) (hold : ∀ b, (∃ q, old q = some b) ↔ used b) : Exact used' (Sum.elim a own) held := by
  have hplace : ∀ {p b}, own p = some b → ∃ q, Sum.elim a old (Sum.inr q) = some b := fun hp =>
    (hold _).mpr (hown.used_of_own hp)
  refine ⟨fun b => ?_, ?_, ?_, h.nodup⟩
  · rw [h.used_iff, Sum.exists, Sum.exists]
    refine or_congr (or_congr Iff.rfl ((hold b).trans ?_)) Iff.rfl
    rw [hown.used_iff, or_iff_left List.not_mem_nil]
    rfl
  · rintro (x | p) (y | q) b hp hq
    · exact congrArg Sum.inl (Sum.inl.inj (h.once (p := Sum.inl x) (q := Sum.inl y) hp hq))
    · obtain ⟨q', hq'⟩ := hplace hq
      cases h.once (p := Sum.inl x) hp hq'
    · obtain ⟨p', hp'⟩ := hplace hp
      cases h.once (q := Sum.inl y) hp' hq
    · exact congrArg Sum.inr (hown.once hp hq)
  · rintro (x | p) b hp
    · exact h.not_held (p := Sum.inl x) hp
    · obtain ⟨p', hp'⟩ := hplace hp
      exact h.not_held hp'

theorem alloc (h : Exact used own held) (hb : ¬ used b) (hu : ∀ c, used' c ↔ c = b ∨ used c) :
    Exact used' own (b :: held) where
  used_iff c := by
    rw [hu, h.used_iff, List.mem_cons]
    tauto
  once := h.once
  not_held {p c} hp hc := by
    rcases List.mem_cons.mp hc with rfl | hc
    · exact hb (h.used_of_own hp)
    · exact h.not_held hp hc
  nodup := List.nodup_cons.mpr ⟨fun hm => hb (h.used_of_held hm), h.nodup⟩

theorem free (h : Exact used own (b :: held)) (hu : ∀ c, used' c ↔ c ≠ b ∧ used c) : Exact used' own held where
  used_iff c := by
    rw [hu, h.used_iff, List.mem_cons]
    constructor
    · rintro ⟨hne, hp | hc | hc⟩
      · exact .inl hp
      · exact absurd hc hne
      · exact .inr hc
    · rintro (⟨p, hp⟩ | hc)
      · exact ⟨fun he => h.not_held hp (List.mem_cons.mpr (.inl he)), .inl ⟨p, hp⟩⟩
      · exact ⟨fun he => (List.nodup_cons.mp h.nodup).1 (he ▸ hc), .inr (.inr hc)⟩
  once := h.once
  not_held hp hc := h.not_held hp (List.mem_cons_of_mem _ hc)
  nodup := (List.nodup_cons.mp h.nodup).2

variable [DecidableEq P]

theorem attach (h : Exact used own (b :: held)) (hp : own p = none) : Exact used (update own p (some b)) held where
  used_iff c := by
    rw [h.used_iff, List.mem_cons]
    constructor
    · rintro (⟨q, hq⟩ | rfl | hc)
      · refine .inl ⟨q, ?_⟩
        rwa [update_of_ne]
        rintro rfl
        rw [hp] at hq
        cases hq
      · exact .inl ⟨p, update_self ..⟩
      · exact .inr hc
    · rintro (⟨q, hq⟩ | hc)
      · by_cases hqp : q = p
        · rw [hqp, update_self] at hq
          exact .inr (.inl (Option.some.inj hq).symm)
        · rw [update_of_ne hqp] at hq
          exact .inl ⟨q, hq⟩
      · exact .inr (.inr hc)
  once {q r c} hq hr := by
    by_cases hqp : q = p <;> by_cases hrp : r = p
    · rw [hqp, hrp]
    · rw [hqp, update_self] at hq
      rw [update_of_ne hrp] at hr
      exact absurd (List.mem_cons.mpr (.inl (Option.some.inj hq).symm)) (h.not_held hr)
    · rw [hrp, update_self] at hr
      rw [update_of_ne hqp] at hq
      exact absurd (List.mem_cons.mpr (.inl (Option.some.inj hr).symm)) (h.not_held hq)
    · rw [update_of_ne hqp] at hq
      rw [update_of_ne hrp] at hr
      exact h.once hq hr
  not_held {q c} hq hc := by
    by_cases hqp : q = p
    · rw [hqp, update_self] at hq
      exact (List.nodup_cons.mp h.nodup).1 (Option.some.inj hq ▸ hc)
    · rw [update_of_ne hqp] at hq
      exact h.not_held hq (List.mem_cons_of_mem _ hc)
  nodup := (List.nodup_cons.mp h.nodup).2

theorem detach (h : Exact used own held) (hp : own p = some b) : Exact used (update own p none) (b :: held) where
  used_iff c := by
    rw [h.used_iff, List.mem_cons]
    constructor
    · rintro (⟨q, hq⟩ | hc)
      · by_cases hqp : q = p
        · rw [hqp, hp] at hq
          exact .inr (.inl (Option.some.inj hq).symm)
        · exact .inl ⟨q, by rwa [update_of_ne hqp]⟩
      · exact .inr (.inr hc)
    · rintro (⟨q, hq⟩ | rfl | hc)
      · by_cases hqp : q = p
        · rw [hqp, update_self] at hq
          cases hq
        · rw [update_of_ne hqp] at hq
          exact .inl ⟨q, hq⟩
      · exact .inl ⟨p, hp⟩
      · exact .inr hc
  once {q r c} hq hr := by
    by_cases hqp : q = p
    · rw [hqp, update_self] at hq
      cases hq
    by_cases hrp : r = p
    · rw [hrp, update_self] at hr
      cases hr
    rw [update_of_ne hqp] at hq
    rw [update_of_ne hrp] at hr
    exact h.once hq hr
  not_held {q c} hq hc := by
    by_cases hqp : q = p
    · rw [hqp, update_self] at hq
      cases hq
    rw [update_of_ne hqp] at hq
    rcases List.mem_cons.mp hc with rfl | hc
    · exact hqp (h.once hq hp)
    · exact h.not_held hq hc
  nodup := List.nodup_cons.mpr ⟨h.not_held hp, h.nodup⟩

/-- The blocks of the places `ps` come into the hands of the operation, in this order. -/
theorem detachAll (h : Exact used own held) {ps : List P} (hps : ps.Nodup) :
    Exact used (fun q => if q ∈ ps then none else own q) (ps.filterMap own ++ held) := by
  induction ps with
  | nil => simpa using h
  | cons p ps ih =>
    obtain ⟨hp, hps⟩ := List.nodup_cons.mp hps
    have hex := ih hps
    have heq : ∀ q, (if q ∈ p :: ps then none else own q) =
        update (fun q => if q ∈ ps then none else own q) p none q := fun q => by
      by_cases hqp : q = p
      · rw [hqp, update_self, if_pos List.mem_cons_self]
      · rw [update_of_ne hqp]
        simp [hqp]
    cases hown : own p with
    | none =>
      rw [List.filterMap_cons_none hown]
      refine hex.congr_own fun q => ?_
      rw [heq]
      by_cases hqp : q = p
      · rw [hqp, update_self, if_neg hp, hown]
      · rw [update_of_ne hqp]
    | some b =>
      rw [List.filterMap_cons_some hown]
      have hpb : (if p ∈ ps then none else own p) = some b := by rw [if_neg hp, hown]
      exact (hex.detach hpb).congr_own heq

end Exact

end

end Alloc
