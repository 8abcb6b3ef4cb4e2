import Mathlib.Data.List.Nodup
import Mathlib.Logic.Function.Basic

/-!
# Circular doubly linked lists

* `Links κ` : a `next` and a `prev` pointer for every node;
* `Seg k a l b` : the pointers lead from `a` through the nodes `l` to `b`, and back;
* `IsRing k h l` : the nodes `l` form a ring through the list head `h`;
* `Links.unlink`, `Links.insertFront` : the usual pointer surgery, and what it does to a ring;
* `walk` : the nodes met by following a pointer up to the list head.
-/

namespace LinkedRing
open Function

structure Links (κ : Type*) where
  next : κ → κ
  prev : κ → κ

namespace Links
variable {κ : Type*} [DecidableEq κ]

/-- `b->next->prev = b->prev; b->prev->next = b->next`. -/
def unlink (k : Links κ) (b : κ) : Links κ where
  next := update k.next (k.prev b) (k.next b)
  prev := update k.prev (k.next b) (k.prev b)

/-- `b->next = h->next; b->prev = h; h->next->prev = b; h->next = b`. -/
def insertFront (k : Links κ) (h b : κ) : Links κ where
  next := update (update k.next b (k.next h)) h b
  prev := update (update k.prev b h) (k.next h) b

variable {k : Links κ} {b h x : κ}

theorem next_unlink (hx : x ≠ k.prev b) : (k.unlink b).next x = k.next x := update_of_ne hx _ _

theorem prev_unlink (hx : x ≠ k.next b) : (k.unlink b).prev x = k.prev x := update_of_ne hx _ _

theorem next_insertFront (hx : x ≠ h) (hb : x ≠ b) : (k.insertFront h b).next x = k.next x := by
  simp only [insertFront, update_of_ne hx, update_of_ne hb]

theorem prev_insertFront (hx : x ≠ k.next h) (hb : x ≠ b) : (k.insertFront h b).prev x = k.prev x := by
  simp only [insertFront, update_of_ne hx, update_of_ne hb]

end Links

section
variable {κ : Type*} {k : Links κ} {a b : κ} {l : List κ}

def Seg (k : Links κ) (a : κ) : List κ → κ → Prop
  | [], b => k.next a = b ∧ k.prev b = a
  | x :: l, b => k.next a = x ∧ k.prev x = a ∧ Seg k x l b

structure IsRing (k : Links κ) (h : κ) (l : List κ) : Prop where
  seg : Seg k h l h
  nodup : (h :: l).Nodup

/-- The nodes met from `x` on before `h`, at most `n` of them. -/
def walk [DecidableEq κ] (step : κ → κ) (h : κ) : Nat → κ → List κ
  | 0, _ => []
  | n + 1, x => if x = h then [] else x :: walk step h n (step x)

theorem seg_append {x : κ} {l' : List κ} : Seg k a (l ++ x :: l') b ↔ Seg k a l x ∧ Seg k x l' b := by
  induction l generalizing a with
  | nil => simp only [List.nil_append, Seg, and_assoc]
  | cons y l ih => simp only [List.cons_append, Seg, ih, and_assoc]

theorem Seg.frame {k' : Links κ} (h : Seg k a l b) (hn : ∀ x ∈ a :: l, k'.next x = k.next x)
    (hp : ∀ x ∈ l ++ [b], k'.prev x = k.prev x) : Seg k' a l b := by
  induction l generalizing a with
  | nil => exact ⟨(hn a (by simp)).trans h.1, (hp b (by simp)).trans h.2⟩
  | cons x l ih =>
    refine ⟨(hn a (by simp)).trans h.1, (hp x (by simp)).trans h.2.1, ih h.2.2 (fun y hy => ?_) fun y hy => ?_⟩
    · exact hn y (List.mem_cons_of_mem _ hy)
    · exact hp y (List.mem_cons_of_mem _ hy)

theorem Seg.last (h : Seg k a l b) : k.prev b ∈ a :: l ∧ k.next (k.prev b) = b := by
  induction l generalizing a with
  | nil =>
    rw [h.2]
    exact ⟨by simp, h.1⟩
  | cons x l ih => exact ⟨List.mem_cons_of_mem _ (ih h.2.2).1, (ih h.2.2).2⟩

theorem Seg.first (h : Seg k a l b) : k.next a ∈ l ++ [b] ∧ k.prev (k.next a) = a := by
  cases l with
  | nil =>
    rw [h.1]
    exact ⟨by simp, h.2⟩
  | cons x l =>
    rw [h.1]
    exact ⟨by simp, h.2.1⟩

section Surgery
variable [DecidableEq κ] {k : Links κ} {a b h : κ} {l l' : List κ}

/-- Two segments that meet in `b` become one without it. -/
theorem Seg.unlink {c : κ} (h1 : Seg k a l b) (h2 : Seg k b l' c) (hnd : (a :: (l ++ b :: l')).Nodup)
    (hc : c ∉ l ++ b :: l') : Seg (k.unlink b) a (l ++ l') c := by
  have hfirst := h2.first
  induction l generalizing a with
  | nil =>
    obtain ⟨hab, hba⟩ := h1
    cases l' with
    | nil =>
      obtain ⟨hbc, hcb⟩ := h2
      simp [Seg, Links.unlink, hba, hbc]
    | cons y l' =>
      obtain ⟨hby, hyb, hseg⟩ := h2
      refine ⟨by simp [Links.unlink, hba, hby], by simp [Links.unlink, hba, hby], ?_⟩
      simp only [List.nil_append, List.nodup_cons, List.mem_cons, not_or] at hnd hc
      refine hseg.frame (fun x hx => Links.next_unlink ?_) fun x hx => Links.prev_unlink ?_
      · rw [hba]
        rintro rfl
        rcases List.mem_cons.mp hx with rfl | hx
        · exact hnd.1.2.1 rfl
        · exact hnd.1.2.2 hx
      · rw [hby]
        rintro rfl
        rcases List.mem_append.mp hx with hx | hx
        · exact hnd.2.2.1 hx
        · exact hc.2.1 (List.mem_singleton.mp hx).symm
  | cons x l ih =>
    obtain ⟨hax, hxa, hseg⟩ := h1
    have hlast := hseg.last.1
    simp only [List.cons_append, List.nodup_cons] at hnd
    refine ⟨?_, ?_, ih hseg (by simpa using hnd.2) fun hm => hc (by simp [hm])⟩
    · rw [Links.next_unlink, hax]
      rintro rfl
      refine hnd.1 ?_
      rcases List.mem_cons.mp hlast with he | hm
      · simp [he]
      · simp [hm]
    · rw [Links.prev_unlink, hxa]
      rintro rfl
      rcases List.mem_append.mp hfirst.1 with hm | hm
      · exact hnd.2.1 (by simp [hm])
      · exact hc (by simp [List.mem_singleton.mp hm])

theorem IsRing.unlink (hr : IsRing k h (l ++ b :: l')) : IsRing (k.unlink b) h (l ++ l') := by
  obtain ⟨h1, h2⟩ := seg_append.mp hr.seg
  refine ⟨h1.unlink h2 hr.nodup (List.nodup_cons.mp hr.nodup).1, ?_⟩
  refine hr.nodup.sublist (List.Sublist.cons_cons _ ?_)
  exact List.Sublist.append_left (List.sublist_cons_self _ _) _

theorem IsRing.insertFront (hr : IsRing k h l) (hb : b ∉ h :: l) : IsRing (k.insertFront h b) h (b :: l) := by
  have hnd := hr.nodup
  have hbh : b ≠ h := fun he => hb (by simp [he])
  have hseg := hr.seg
  have hfirst := hseg.first
  have hnext : k.next h ≠ b := by
    intro he
    rcases List.mem_append.mp hfirst.1 with hm | hm
    · exact hb (by simp [← he, hm])
    · exact hbh (by rw [← he]; exact List.mem_singleton.mp hm)
  refine ⟨⟨?_, ?_, ?_⟩, ?_⟩
  · simp [Links.insertFront]
  · simp [Links.insertFront, update_of_ne hnext.symm]
  · cases l with
    | nil =>
      obtain ⟨hhh, -⟩ := hseg
      simp [Seg, Links.insertFront, update_of_ne hbh, hhh]
    | cons x l =>
      obtain ⟨hhx, hxh, hrest⟩ := hseg
      refine ⟨by simp [Links.insertFront, update_of_ne hbh, hhx], by simp [Links.insertFront, hhx], ?_⟩
      refine hrest.frame (fun y hy => ?_) fun y hy => ?_
      · have hyh : y ≠ h := by
          rintro rfl
          exact (List.nodup_cons.mp hnd).1 hy
        have hyb : y ≠ b := by
          rintro rfl
          exact hb (List.mem_cons_of_mem _ hy)
        exact Links.next_insertFront hyh hyb
      · have hyx : y ≠ x := by
          rintro rfl
          rcases List.mem_append.mp hy with hm | hm
          · exact (List.nodup_cons.mp (List.nodup_cons.mp hnd).2).1 hm
          · have := List.mem_singleton.mp hm
            exact (List.nodup_cons.mp hnd).1 (by simp [← this])
        have hyb : y ≠ b := by
          rintro rfl
          rcases List.mem_append.mp hy with hm | hm
          · exact hb (by simp [hm])
          · exact hbh (List.mem_singleton.mp hm)
        exact Links.prev_insertFront (hhx ▸ hyx) hyb
  · rw [List.nodup_cons] at hnd ⊢
    refine ⟨fun hm => ?_, List.nodup_cons.mpr ⟨fun hm => hb (List.mem_cons_of_mem _ hm), hnd.2⟩⟩
    rcases List.mem_cons.mp hm with he | hm
    · exact hbh he.symm
    · exact hnd.1 hm

/-- Following `next` from the list head meets the nodes of the ring in order. -/
theorem Seg.walk_next {n : Nat} (hs : Seg k a l h) (hn : l.length ≤ n) (hnot : h ∉ l) :
    walk k.next h n (k.next a) = l := by
  induction l generalizing a n with
  | nil =>
    rw [hs.1]
    cases n <;> simp [walk]
  | cons x l ih =>
    obtain ⟨hax, -, hseg⟩ := hs
    obtain ⟨m, rfl⟩ : ∃ m, n = m + 1 := ⟨n - 1, by simp at hn; omega⟩
    have hxh : x ≠ h := fun he => hnot (by simp [he])
    rw [hax, walk, if_neg hxh, ih hseg (by simpa using hn) fun hm => hnot (List.mem_cons_of_mem _ hm)]

theorem IsRing.walk_next {n : Nat} (hr : IsRing k h l) (hn : l.length ≤ n) : walk k.next h n (k.next h) = l :=
  hr.seg.walk_next hn (List.nodup_cons.mp hr.nodup).1

end Surgery

end

end LinkedRing
