import Mathlib.Data.List.Nodup
import Mathlib.Logic.Function.Basic
import Mathlib.Logic.Relation

/-!
# Singly linked chains

* `Seg next l z` : `next` leads along the nodes `l`, and from the last of them to `z`;
* `seg_append`, `Seg.congr` : chains in parts, and chains under other pointers;
* `Seg.rotate` : a ring, read from another of its nodes;
* `Leads next a b` : `next` leads from `a` to `b`, which is so for the nodes of a ring.
-/

namespace Chain
open Function

section
variable {A : Type*} {next next' : A → A} {a b f z : A} {l l' : List A}

def Seg (next : A → A) : List A → A → Prop
  | [], _ => True
  | a :: l, z => next a = l.headD z ∧ Seg next l z

theorem seg_append : Seg next (l ++ l') z ↔ Seg next l (l'.headD z) ∧ Seg next l' z := by
  induction l with
  | nil => simp only [List.nil_append, Seg, true_and]
  | cons a l ih =>
    have hhead : (l ++ l').headD z = l.headD (l'.headD z) := by cases l <;> rfl
    simp only [List.cons_append, Seg, ih, hhead, and_assoc]

theorem Seg.congr (h : Seg next l z) (hn : ∀ x ∈ l, next' x = next x) : Seg next' l z := by
  induction l with
  | nil => trivial
  | cons a l ih =>
    refine ⟨(hn a List.mem_cons_self).trans h.1, ih h.2 fun x hx => hn x (List.mem_cons_of_mem a hx)⟩

theorem Seg.update [DecidableEq A] (h : Seg next l z) (ha : a ∉ l) : Seg (update next a b) l z := by
  refine h.congr fun x hx => update_of_ne ?_ ..
  rintro rfl
  exact ha hx

/-- The nodes after `f` and then those before it lead back to `f`. -/
theorem Seg.rotate (h : Seg next (l ++ f :: l') z) (hz : (l ++ [f]).headD z = z) : Seg next (f :: (l' ++ l)) f := by
  obtain ⟨hl, hf, hl'⟩ := seg_append.mp h
  have hhead : l.headD f = z := by
    cases l with
    | nil => exact hz
    | cons a l => exact hz
  refine ⟨?_, seg_append.mpr ⟨?_, hl⟩⟩
  · cases l' with
    | nil => rw [List.nil_append, hhead, hf]; rfl
    | cons a l' => exact hf
  · rwa [hhead]

def Leads (next : A → A) : A → A → Prop := Relation.ReflTransGen fun a b => next a = b

theorem Seg.leads (h : Seg next (a :: l) z) (hb : b ∈ a :: l) : Leads next a b := by
  induction l generalizing a with
  | nil =>
    rw [List.mem_singleton.mp hb]
    exact .refl
  | cons c l ih =>
    rcases List.mem_cons.mp hb with rfl | hb
    · exact .refl
    · exact .head h.1 (ih h.2 hb)

theorem Seg.next_mem (h : Seg next l z) (ha : a ∈ l) : next a ∈ l ∨ next a = z := by
  obtain ⟨l₁, l₂, rfl⟩ := List.append_of_mem ha
  have hnext : next a = l₂.headD z := (seg_append.mp h).2.1
  cases l₂ with
  | nil => exact .inr hnext
  | cons b l₂ =>
    rw [List.headD_cons] at hnext
    exact .inl (by simp [hnext])

theorem Seg.leads_iff (h : Seg next (a :: l) a) : Leads next a b ↔ b ∈ a :: l := by
  refine ⟨fun hb => ?_, h.leads⟩
  induction hb with
  | refl => exact List.mem_cons_self
  | tail _ hnext ih =>
    rw [← hnext]
    rcases h.next_mem ih with hmem | hz
    · exact hmem
    · rw [hz]
      exact List.mem_cons_self

end

end Chain
