import Mathlib.Data.List.Induction
import Mathlib.Logic.Function.Basic

/-!
# Radix trees in memory

`child a i` is the node that slot `i` of node `a` points to. A tree of depth `d` is what is reached from its root by
paths of at most `d` slots.

* `descend child a p` : the node at the end of the path `p` from `a`;
* `node child d a p` : the same for the paths of a tree of depth `d`;
* `node_congr` : the tree does not depend on the slots of nodes that are not inner ones;
* `node_attach` : a new node below an inner one is one more node, and changes nothing else.
-/

namespace Radix
open Function

section
variable {A I : Type*}

def descend (child : A → I → Option A) : A → List I → Option A
  | a, [] => some a
  | a, i :: p => (child a i).bind fun b => descend child b p

def node (child : A → I → Option A) (d : Nat) (a : A) (p : List I) : Option A :=
  if p.length ≤ d then descend child a p else none

variable {child child' : A → I → Option A} {d : Nat} {a b c : A} {i : I} {p q : List I}

theorem descend_append (a : A) (p q : List I) :
    descend child a (p ++ q) = (descend child a p).bind fun b => descend child b q := by
  induction p generalizing a with
  | nil => rfl
  | cons i p ih =>
    rw [List.cons_append, descend, descend, Option.bind_assoc]
    congr 1
    funext b
    exact ih b

theorem descend_single (a : A) (i : I) : descend child a [i] = child a i := by
  rw [descend]
  exact Option.bind_fun_some _

theorem descend_snoc (a : A) (p : List I) (i : I) :
    descend child a (p ++ [i]) = (descend child a p).bind fun b => child b i := by
  rw [descend_append]
  congr 1
  funext b
  exact descend_single b i

theorem node_of_le (child : A → I → Option A) (a : A) (h : p.length ≤ d) :
    node child d a p = descend child a p := if_pos h

theorem length_snoc_le (hp : p.length < d) : (p ++ [i]).length ≤ d := by
  rw [List.length_append]
  exact hp

theorem length_lt_of_snoc (hp : (p ++ [i]).length ≤ d) : p.length < d := by
  rw [List.length_append] at hp
  exact hp

theorem node_nil : node child d a [] = some a := if_pos (Nat.zero_le d)

theorem length_le_of_node (h : node child d a p = some b) : p.length ≤ d := by
  by_contra hlt
  rw [node, if_neg hlt] at h
  cases h

theorem descend_of_node (h : node child d a p = some b) : descend child a p = some b := by
  rwa [node_of_le _ _ (length_le_of_node h)] at h

/-- Nothing is below a node without children. -/
theorem node_of_empty (h : ∀ i, child a i = none) (hp : node child d a p = some b) : p = [] ∧ b = a := by
  have hdescend := descend_of_node hp
  cases p with
  | nil => exact ⟨rfl, (Option.some.inj hdescend).symm⟩
  | cons i p =>
    rw [descend, h i, Option.bind_none] at hdescend
    cases hdescend

/-- Only the slots of inner nodes count. -/
theorem node_congr (h : ∀ p b, p.length < d → node child d a p = some b → ∀ i, child' b i = child b i) (p : List I) :
    node child' d a p = node child d a p := by
  induction p using List.reverseRecOn with
  | nil => rw [node_nil, node_nil]
  | append_singleton p i ih =>
    by_cases hlen : (p ++ [i]).length ≤ d
    · have hlt : p.length < d := length_lt_of_snoc hlen
      rw [node_of_le _ _ hlen, node_of_le _ _ hlen, descend_snoc, descend_snoc]
      rw [node_of_le _ _ (Nat.le_of_lt hlt), node_of_le _ _ (Nat.le_of_lt hlt)] at ih
      rw [ih]
      cases hb : descend child a p with
      | none => rfl
      | some b => exact h p b hlt (by rw [node_of_le _ _ (Nat.le_of_lt hlt), hb]) i
    · rw [node, node, if_neg hlen, if_neg hlen]

/-- A node `c` without children is put into the empty slot `i` of the inner node `b`. -/
theorem node_attach [DecidableEq I] (honce : ∀ {p q b}, node child d a p = some b → node child d a q = some b → p = q)
    (hb : node child d a p = some b) (hp : p.length < d) (hempty : child b i = none)
    (hslot : ∀ j, child' b j = if j = i then some c else child b j) (hleaf : ∀ j, child' c j = none)
    (hother : ∀ q e, q.length < d → node child d a q = some e → e ≠ b → ∀ j, child' e j = child e j) (q : List I) :
    node child' d a q = update (node child d a) (p ++ [i]) (some c) q := by
  have hpi : node child d a (p ++ [i]) = none := by
    rw [node_of_le _ _ (length_snoc_le hp), descend_snoc, descend_of_node hb]
    exact hempty
  induction q using List.reverseRecOn with
  | nil => rw [update_of_ne (by simp), node_nil, node_nil]
  | append_singleton q j ih =>
    by_cases hlen : (q ++ [j]).length ≤ d
    · have hlt : q.length < d := length_lt_of_snoc hlen
      rw [node_of_le _ _ hlen, descend_snoc, ← node_of_le child' a (Nat.le_of_lt hlt), ih]
      by_cases hq : q = p ++ [i]
      · -- below the new node there is nothing, and there was nothing
        have hne : q ++ [j] ≠ p ++ [i] := by
          rw [hq]
          simp
        rw [update_of_ne hne, hq, update_self, node_of_le _ _ (by rwa [← hq]), descend_snoc,
          ← node_of_le child a (length_snoc_le hp), hpi]
        exact hleaf j
      · rw [update_of_ne hq]
        by_cases hqp : q = p
        · rw [hqp, hb]
          show child' b j = _
          rw [hslot j]
          by_cases hj : j = i
          · rw [if_pos hj, hj, update_self]
          · have hne : p ++ [j] ≠ p ++ [i] := fun hc => hj (by simpa using hc)
            rw [if_neg hj, update_of_ne hne, node_of_le _ _ (by rwa [← hqp]), descend_snoc, descend_of_node hb]
            rfl
        · have hne : q ++ [j] ≠ p ++ [i] := fun hc => hqp (List.append_inj' hc rfl).1
          rw [update_of_ne hne, node_of_le _ _ hlen, descend_snoc, ← node_of_le child a (Nat.le_of_lt hlt)]
          cases he : node child d a q with
          | none => rfl
          | some e => exact hother q e hlt he (fun hc => hqp (honce (hc ▸ he) hb)) j
    · have hne : q ++ [j] ≠ p ++ [i] := by
        rintro hc
        rw [hc] at hlen
        exact hlen (length_snoc_le hp)
      rw [update_of_ne hne, node, node, if_neg hlen, if_neg hlen]

end

end Radix
