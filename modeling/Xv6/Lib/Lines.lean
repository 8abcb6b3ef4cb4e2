import Mathlib.Data.List.Basic
import Mathlib.Data.Nat.Init

/-!
# Lines

A list is cut behind every separator.

* `lines sep s` : the parts that a separator ends, without it; `unfinished sep s` : what is behind the last one;
* `cut_induction` : induction over the parts;
* `lines_append` : the lines of a list that arrives in two pieces.
-/

namespace Lines

section
variable {A : Type*} [DecidableEq A] {sep : A} {s t line : List A}

def lines (sep : A) (s : List A) : List (List A) := (s.splitOnP (· == sep)).dropLast

def unfinished (sep : A) (s : List A) : List A := (s.splitOnP (· == sep)).getLastD []

theorem beq_sep (h : sep ∉ s) : ∀ c ∈ s, (c == sep) = false := by
  intro c hc
  exact beq_false_of_ne fun heq => h (heq ▸ hc)

theorem splitOnP_notMem (h : sep ∉ s) : s.splitOnP (· == sep) = [s] :=
  List.splitOnP_eq_singleton (beq_sep h)

theorem splitOnP_line (h : sep ∉ line) (s : List A) :
    (line ++ sep :: s).splitOnP (· == sep) = line :: s.splitOnP (· == sep) :=
  List.splitOnP_append_cons_of_forall_mem (beq_sep h) _ (beq_self_eq_true sep) s

theorem lines_notMem (h : sep ∉ s) : lines sep s = [] := by
  rw [lines, splitOnP_notMem h]
  rfl

theorem unfinished_notMem (h : sep ∉ s) : unfinished sep s = s := by
  rw [unfinished, splitOnP_notMem h]
  rfl

theorem lines_line (h : sep ∉ line) (s : List A) : lines sep (line ++ sep :: s) = line :: lines sep s := by
  rw [lines, splitOnP_line h, List.dropLast_cons_of_ne_nil (List.splitOnP_ne_nil _ _)]
  rfl

theorem unfinished_line (h : sep ∉ line) (s : List A) : unfinished sep (line ++ sep :: s) = unfinished sep s := by
  obtain ⟨part, parts, hcons⟩ := List.exists_cons_of_ne_nil (List.splitOnP_ne_nil (· == sep) s)
  rw [unfinished, splitOnP_line h, unfinished, hcons]
  simp

/-- A list has no separator, or begins with a line. -/
theorem cut_cases (sep : A) (s : List A) : sep ∉ s ∨ ∃ line t, sep ∉ line ∧ s = line ++ sep :: t := by
  by_cases h : sep ∈ s
  · obtain ⟨line, t, heq, hline⟩ := List.eq_append_cons_of_mem h
    exact .inr ⟨line, t, hline, heq⟩
  · exact .inl h

theorem cut_induction (sep : A) {P : List A → Prop} (hlast : ∀ s, sep ∉ s → P s)
    (hline : ∀ line s, sep ∉ line → P s → P (line ++ sep :: s)) (s : List A) : P s := by
  induction hn : s.length using Nat.strong_induction_on generalizing s with
  | _ n ih =>
    obtain h | ⟨line, t, h, rfl⟩ := cut_cases sep s
    · exact hlast s h
    · exact hline line t h (ih t.length (by simp at hn; omega) t rfl)

theorem notMem_unfinished (sep : A) (s : List A) : sep ∉ unfinished sep s := by
  induction s using cut_induction sep with
  | hlast s h => rwa [unfinished_notMem h]
  | hline line s h ih => rwa [unfinished_line h]

theorem mem_of_mem_unfinished {c : A} (h : c ∈ unfinished sep s) : c ∈ s := by
  induction s using cut_induction sep with
  | hlast s hs => rwa [unfinished_notMem hs] at h
  | hline line s hline ih =>
    rw [unfinished_line hline] at h
    exact List.mem_append_right _ (List.mem_cons_of_mem _ (ih h))

/-- A list that arrives in two pieces: the lines that end in the first, and those that the rest of it begins. -/
theorem lines_append (sep : A) (s t : List A) :
    lines sep (s ++ t) = lines sep s ++ lines sep (unfinished sep s ++ t) := by
  induction s using cut_induction sep with
  | hlast s h => rw [lines_notMem h, unfinished_notMem h, List.nil_append]
  | hline line s h ih =>
    rw [List.append_assoc, List.cons_append, lines_line h, lines_line h, unfinished_line h, ih, List.cons_append]

theorem length_of_mem_lines (h : line ∈ lines sep s) : line.length < s.length := by
  induction s using cut_induction sep with
  | hlast s hs =>
    rw [lines_notMem hs] at h
    exact absurd h (List.not_mem_nil)
  | hline line' s hline ih =>
    rw [lines_line hline, List.mem_cons] at h
    rw [List.length_append, List.length_cons]
    rcases h with rfl | h
    · omega
    · have := ih h
      omega

end

end Lines
