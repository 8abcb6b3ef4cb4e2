import Xv6.Exec.Stack
import Xv6.Vm.Borrow

/-!
# The arguments of `sys_exec()`

* `fetchaddr_spec`, `fetchArgs_spec` : the loop takes a page for each argument and reads the argument into it; the
  caller sees at most that pages of its memory have been faulted in.
-/

namespace Xv6.Exec
open Vm Hoare Function

section
variable {P : Type} [DecidableEq P] {R : VmPanic → Prop} {s t : Phys} {root : Vm.Frame} {psz addr uargv : BitVec 64}
  {ext : P → Option Vm.Frame} {l : List Vm.Frame}

theorem fetchaddr_spec (hsize : psz ≤ maxva) (h : UserTable userPages s root psz ext) :
    Runs R (fetchaddr root psz addr) s fun _ t => Accessed userPages s t root psz ext fun _ => none := by
  unfold fetchaddr
  refine .ite (fun _ => .pure (.refl h)) fun _ => ?_
  refine (copyinLoop_spec hsize _ h (Nat.le_refl _)).seq fun r t ht => ?_
  exact .ite (fun _ => .pure ht.1) fun _ => .pure ht.1

omit [DecidableEq P] in
/-- A string that has been fetched ends in its buffer. -/
theorem strSize_fetched {r : Int × (Nat → UInt8)} (h : FetchedStr s t root psz addr 4096#32 r) (hr : ¬ r.1 < 0) :
    strSize r.2 ≤ 4096 := by
  rcases h with ⟨k, hk, hstr, -, hbyte⟩ | ⟨hr', -⟩
  · have hlen : strlen r.2 pgsize 0 = 0 + k := by
      refine strlen_eq ?_ (fun i hi => ?_) hk
      · rw [Nat.zero_add]
        exact Option.some.inj ((hbyte k (Nat.le_refl k)).trans hstr.1)
      · obtain ⟨b, hb, heq⟩ := hstr.2 i hi
        rw [Nat.zero_add, Option.some.inj ((hbyte i (Nat.le_of_lt hi)).trans heq)]
        exact hb
    have hmax : (4096#32).toNat = 4096 := rfl
    rw [strSize, hlen]
    omega
  · rw [hr'] at hr
    exact absurd (by decide) hr

/-- All arguments have been fetched. -/
def Fetched (s : Phys) (l : List Vm.Frame) : Prop := l.length < maxarg ∧ ∀ f ∈ l, strSize (s.mem f) ≤ 4096

/-- **The arguments are fetched**, each into a page of its own. -/
theorem fetchArgs_spec (hsize : psz ≤ maxva) (k : Nat) :
    ∀ l s, Borrowing s root psz ext l → (∀ f ∈ l, strSize (s.mem f) ≤ 4096) →
    l.length + k = maxarg →
    Runs R (fetchArgs root psz uargv k l) s fun r t => Borrowing t root psz ext r.2 ∧ Vm.Touched s t root psz ext ∧
      (r.1 = true → Fetched t r.2) := by
  induction k with
  | zero => exact fun l s h _ _ => .pure ⟨h, (Accessed.refl h.table).touched.sub fun q f hq => ⟨Sum.inl q, hq⟩,
      fun hc => by cases hc⟩
  | succ k ih =>
    intro l s h hstrs hcount
    unfold fetchArgs
    refine (fetchaddr_spec hsize h.table).seq fun r t hacc => ?_
    obtain ⟨ht, htouch⟩ := h.accessed hacc
    have hstrs' : ∀ f ∈ l, strSize (t.mem f) ≤ 4096 := fun f hf => by
      obtain ⟨i, hi⟩ := List.mem_iff_getElem?.mp hf
      rw [hacc.keeps.mem f (.inl ⟨Sum.inr i, hi⟩)]
      exact hstrs f hf
    cases r with
    | none => exact .pure ⟨ht, htouch, fun hc => by cases hc⟩
    | some uarg =>
      refine .ite (fun _ => .pure ⟨ht, htouch, fun _ => ⟨by dsimp only; omega, hstrs'⟩⟩) fun _ => ?_
      refine kalloc_bind (fun _ => .pure ⟨ht, htouch, fun hc => by cases hc⟩) fun page rest hfree => ?_
      obtain ⟨hu, htouch'⟩ := ht.take (x := fun _ => 5) hfree
      refine .get_bind ?_
      refine (fetchstr_accessed hsize hu.table (by decide)).seq fun r u hfetch => ?_
      obtain ⟨hv, htouch''⟩ := hu.accessed hfetch.1
      obtain ⟨hw, htouch3⟩ := hv.write (x := r.2) (List.mem_append_right l List.mem_cons_self)
      have hall := ((htouch.trans htouch').trans htouch'').trans htouch3
      refine .modify_bind (.ite (fun _ => .pure ⟨hw, hall, fun hc => by cases hc⟩) fun hr => ?_)
      refine (ih _ _ hw (fun f hf => ?_) (by rw [List.length_append, List.length_singleton]; omega)).mono fun r t ht =>
        ⟨ht.1, hall.trans ht.2.1, ht.2.2⟩
      dsimp only
      by_cases hpage : f = page
      · rw [hpage, update_self]
        exact strSize_fetched hfetch.2 hr
      · have hl : f ∈ l := (List.mem_append.mp hf).resolve_right fun hc => hpage (List.mem_singleton.mp hc)
        obtain ⟨i, hi⟩ := List.mem_iff_getElem?.mp hf
        rw [update_of_ne hpage, hfetch.1.keeps.mem f (.inl ⟨Sum.inr i, hi⟩)]
        dsimp only
        rw [update_of_ne hpage]
        exact hstrs' f hl

end

end Xv6.Exec
