import Xv6.Buf.Cache

/-!
# The buffer cache is a transparent view of the disk

* `BufUse` : the LRU list is a ring of all buffers, `refcnt` counts the holder, the pins and the threads inside
  `bread()` or `brelse()`, and a thread has the buffer it asked for;
* `BufView` : no block is cached twice; a valid buffer holds what was stored last; the disk does, for a block that is
  not cached, or whose buffer is neither pinned nor changed since it was saved;
* `cache_transparent` : what holds in every state that the calls can reach.
-/

namespace Xv6
open Automaton LinkedRing Function

variable {T : Type*} {α : Type*}

/-- The references of a thread to buffer `i` other than through its lock. -/
def BufPc.refs (i : Fin nbuf) : BufPc → Nat
  | .lock _ _ j | .drop j => if j = i then 1 else 0
  | _ => 0

/-- The thread is in `bread(dev, b)` with buffer `i`. -/
def BufPc.Reads (dev b : Nat) (i : Fin nbuf) (c : BufPc) : Prop := c = .lock dev b i ∨ c = .fill dev b i

structure BufUse [Fintype T] (s : BufState T α) : Prop where
  ring : ∃ l : List (Fin nbuf), IsRing s.links none (l.map some) ∧ ∀ i, i ∈ l
  refs : ∀ i, (s.buf i).refcnt = (s.lock i).toList.length + s.pins i + weigh (BufPc.refs i) s.pc
  reads : ∀ p dev b i, (s.pc p).Reads dev b i → (s.buf i).dev = dev ∧ (s.buf i).blockno = b
  filling : ∀ p dev b i, s.pc p = .fill dev b i → s.lock i = some p ∧ (s.buf i).valid = false
  held : ∀ i p, s.lock i = some p → (s.buf i).valid = true ∨ ∃ dev b, s.pc p = .fill dev b i
  saved : ∀ i, s.lock i = none → s.unsaved i = false

/-- What was stored last, or what the disk `d` held at first. -/
def BufState.view (d : Nat → Nat → α) (s : BufState T α) (dev b : Nat) : α := (s.stored dev b).getD (d dev b)

/-- The data of the buffer is to be found on the disk. -/
def BufState.Clean (s : BufState T α) (i : Fin nbuf) : Prop :=
  s.unsaved i = false ∧ s.pins i = 0 ∨ s.synced i = true

structure BufView (d : Nat → Nat → α) (s : BufState T α) : Prop where
  unique : ∀ i j, 1 ≤ (s.buf i).dev → (s.buf j).dev = (s.buf i).dev → (s.buf j).blockno = (s.buf i).blockno → j = i
  cached : ∀ i, 1 ≤ (s.buf i).dev → (s.buf i).valid = true → (s.buf i).data = s.view d (s.buf i).dev (s.buf i).blockno
  absent : ∀ dev b, 1 ≤ dev → (∀ i, (s.buf i).dev = dev → (s.buf i).blockno = b → (s.buf i).valid = false) →
    s.disk dev b = s.view d dev b
  clean : ∀ i, 1 ≤ (s.buf i).dev → (s.buf i).valid = true → s.Clean i →
    s.disk (s.buf i).dev (s.buf i).blockno = (s.buf i).data

/-! ## The LRU list -/

theorem isRing_binit : IsRing binit none ((List.finRange nbuf).reverse.map some) := by
  have hfold : ∀ (xs l : List (Fin nbuf)) (k : Links (Option (Fin nbuf))), IsRing k none (l.map some) →
      (xs.reverse ++ l).Nodup →
      IsRing (xs.foldl (fun k i => k.insertFront none (some i)) k) none ((xs.reverse ++ l).map some) := by
    intro xs
    induction xs with
    | nil => exact fun l k hk _ => hk
    | cons x xs ih =>
      intro l k hk hnd
      rw [List.reverse_cons, List.append_assoc, List.singleton_append] at hnd ⊢
      refine ih (x :: l) _ ?_ hnd
      refine hk.insertFront fun hm => ?_
      have hx : x ∉ l := (List.nodup_cons.mp (List.nodup_append.mp hnd).2.1).1
      simp only [List.mem_cons, List.mem_map, reduceCtorEq, false_or] at hm
      obtain ⟨y, hy, he⟩ := hm
      exact hx (Option.some.inj he ▸ hy)
  have hnil : IsRing (⟨fun _ => none, fun _ => none⟩ : Links (Option (Fin nbuf))) none ([].map some) :=
    ⟨⟨rfl, rfl⟩, by simp⟩
  have h := hfold (List.finRange nbuf) [] _ hnil (by simpa using List.nodup_finRange nbuf)
  simpa [binit] using h

section Lists
variable {s : BufState T α} {l : List (Fin nbuf)}

section
variable (hr : IsRing s.links none (l.map some))
include hr

theorem length_le_of_ring : l.length ≤ nbuf := by
  have hnd : l.Nodup := (List.nodup_cons.mp hr.nodup).2.of_map _
  simpa using hnd.length_le_card

theorem forward_eq : s.forward = l := by
  rw [BufState.forward, hr.walk_next (by simpa using length_le_of_ring hr)]
  show List.filterMap id (l.map some) = l
  simp [List.filterMap_map]

theorem not_cached {dev b : Nat} (hall : ∀ i, i ∈ l) (hn : s.cached dev b = none) (i : Fin nbuf) :
    ¬ ((s.buf i).dev = dev ∧ (s.buf i).blockno = b) := by
  rw [BufState.cached, forward_eq hr] at hn
  simpa using List.find?_eq_none.mp hn i (hall i)

/-- A buffer is moved to the front of the list. -/
theorem ring_front {i : Fin nbuf} (hall : ∀ i, i ∈ l) :
    ∃ l' : List (Fin nbuf), IsRing ((s.links.unlink (some i)).insertFront none (some i)) none (l'.map some) ∧
      ∀ i, i ∈ l' := by
  have hnd : l.Nodup := (List.nodup_cons.mp hr.nodup).2.of_map _
  obtain ⟨l₁, l₂, rfl⟩ := List.append_of_mem (hall i)
  rw [List.map_append, List.map_cons] at hr
  have hun := hr.unlink
  rw [← List.map_append] at hun
  have hi : i ∉ l₁ ++ l₂ := (List.nodup_middle.mp hnd).notMem
  refine ⟨i :: (l₁ ++ l₂), hun.insertFront ?_, fun j => ?_⟩
  · simpa using hi
  · have hj := hall j
    simp only [List.mem_append, List.mem_cons] at hj ⊢
    tauto

end

end Lists

/-! ## One step: contents -/

section View
variable {d : Nat → Nat → α} {s t : BufState T α} {i : Fin nbuf}

theorem buf_setBuf_of_ne {j : Fin nbuf} {b : Buf α} (h : j ≠ i) : (s.setBuf i b).buf j = s.buf j :=
  update_of_ne h _ _

@[simp] theorem buf_setBuf_self (s : BufState T α) (i : Fin nbuf) (b : Buf α) : (s.setBuf i b).buf i = b :=
  update_self _ _ _

/-- The buffers hold the same blocks and data, though their reference counts may differ. -/
def SameBlocks (s t : BufState T α) : Prop :=
  ∀ j, (t.buf j).valid = (s.buf j).valid ∧ (t.buf j).dev = (s.buf j).dev ∧ (t.buf j).blockno = (s.buf j).blockno ∧
    (t.buf j).data = (s.buf j).data

theorem sameBlocks_refcnt (s : BufState T α) (i : Fin nbuf) (r : Int) :
    SameBlocks s (s.setBuf i { s.buf i with refcnt := r }) := by
  intro j
  by_cases hj : j = i
  · rw [hj, buf_setBuf_self]
    exact ⟨rfl, rfl, rfl, rfl⟩
  · rw [buf_setBuf_of_ne hj]
    exact ⟨rfl, rfl, rfl, rfl⟩

theorem BufView.frame (h : BufView d s) (hb : SameBlocks s t) (hd : t.disk = s.disk) (hs : t.stored = s.stored)
    (hc : ∀ j, t.Clean j → s.Clean j) : BufView d t := by
  have hview : ∀ dev b, t.view d dev b = s.view d dev b := fun dev b => by rw [BufState.view, hs, BufState.view]
  refine ⟨fun i j hi hj hj' => ?_, fun i hi hv => ?_, fun dev b hdev hno => ?_, fun i hi hv hcl => ?_⟩
  · rw [(hb i).2.1] at hi hj
    rw [(hb j).2.1] at hj
    rw [(hb i).2.2.1, (hb j).2.2.1] at hj'
    exact h.unique i j hi hj hj'
  · rw [(hb i).2.1] at hi
    rw [(hb i).1] at hv
    rw [hview, (hb i).2.2.2, (hb i).2.1, (hb i).2.2.1]
    exact h.cached i hi hv
  · rw [hd, hview]
    refine h.absent dev b hdev fun i hi hi' => ?_
    have := hno i
    rw [(hb i).1, (hb i).2.1, (hb i).2.2.1] at this
    exact this hi hi'
  · rw [(hb i).2.1] at hi
    rw [(hb i).1] at hv
    rw [hd, (hb i).2.2.2, (hb i).2.1, (hb i).2.2.1]
    exact h.clean i hi hv (hc i hcl)

/-- A block that is valid in no buffer, or clean in one, is on the disk as it was stored last. -/
theorem BufView.on_disk (h : BufView d s) (hi : 1 ≤ (s.buf i).dev) (hc : s.Clean i) :
    s.disk (s.buf i).dev (s.buf i).blockno = s.view d (s.buf i).dev (s.buf i).blockno := by
  cases hv : (s.buf i).valid with
  | true => rw [h.clean i hi hv hc, h.cached i hi hv]
  | false =>
    refine h.absent _ _ hi fun j hj hj' => ?_
    rw [h.unique i j hi hj hj']
    exact hv

theorem BufView.recycle (h : BufView d s) {dev b : Nat}
    (hn : ∀ j, ¬ ((s.buf j).dev = dev ∧ (s.buf j).blockno = b)) (hc : s.Clean i) :
    BufView d (s.setBuf i ⟨false, dev, b, 1, (s.buf i).data⟩) := by
  refine ⟨fun j k hj hk hk' => ?_, fun j hj hv => ?_, fun dev' b' hdev hno => ?_, fun j hj hv hcl => ?_⟩
  · by_cases hji : j = i
    · by_cases hki : k = i
      · rw [hji, hki]
      · rw [hji, buf_setBuf_self, buf_setBuf_of_ne hki] at hk hk'
        exact absurd ⟨hk, hk'⟩ (hn k)
    · by_cases hki : k = i
      · rw [hki, buf_setBuf_self, buf_setBuf_of_ne hji] at hk hk'
        exact absurd ⟨hk.symm, hk'.symm⟩ (hn j)
      · rw [buf_setBuf_of_ne hji] at hj hk hk'
        rw [buf_setBuf_of_ne hki] at hk hk'
        exact h.unique j k hj hk hk'
  · by_cases hji : j = i
    · rw [hji, buf_setBuf_self] at hv
      cases hv
    · rw [buf_setBuf_of_ne hji] at hj hv ⊢
      exact h.cached j hj hv
  · -- the evicted block is clean, so the disk has it
    by_cases hold : (s.buf i).dev = dev' ∧ (s.buf i).blockno = b'
    · obtain ⟨rfl, rfl⟩ := hold
      exact h.on_disk hdev hc
    · refine h.absent dev' b' hdev fun j hj hj' => ?_
      have hji : j ≠ i := by
        rintro rfl
        exact hold ⟨hj, hj'⟩
      have := hno j
      rw [buf_setBuf_of_ne hji] at this
      exact this hj hj'
  · by_cases hji : j = i
    · rw [hji, buf_setBuf_self] at hv
      cases hv
    · rw [buf_setBuf_of_ne hji] at hj hv ⊢
      exact h.clean j hj hv hcl

theorem BufView.fill (h : BufView d s) (hi : (s.buf i).valid = false) :
    BufView d (s.setBuf i { s.buf i with valid := true, data := s.disk (s.buf i).dev (s.buf i).blockno }) := by
  refine ⟨fun j k hj hk hk' => ?_, fun j hj hv => ?_, fun dev b hdev hno => ?_, fun j hj hv hcl => ?_⟩
  · have hsame : ∀ j,
        ((s.setBuf i { s.buf i with valid := true, data := s.disk (s.buf i).dev (s.buf i).blockno }).buf j).dev =
        (s.buf j).dev ∧
        ((s.setBuf i { s.buf i with valid := true, data := s.disk (s.buf i).dev (s.buf i).blockno }).buf j).blockno =
        (s.buf j).blockno := fun j => by
      by_cases hj : j = i
      · rw [hj, buf_setBuf_self]
        exact ⟨rfl, rfl⟩
      · rw [buf_setBuf_of_ne hj]
        exact ⟨rfl, rfl⟩
    rw [(hsame j).1] at hj hk
    rw [(hsame k).1] at hk
    rw [(hsame j).2, (hsame k).2] at hk'
    exact h.unique j k hj hk hk'
  · by_cases hji : j = i
    · rw [hji, buf_setBuf_self] at hj ⊢
      refine h.absent _ _ hj fun k hk hk' => ?_
      rw [h.unique i k hj hk hk']
      exact hi
    · rw [buf_setBuf_of_ne hji] at hj hv ⊢
      exact h.cached j hj hv
  · refine h.absent dev b hdev fun j hj hj' => ?_
    by_cases hji : j = i
    · rw [hji]
      exact hi
    · have := hno j
      rw [buf_setBuf_of_ne hji] at this
      exact this hj hj'
  · by_cases hji : j = i
    · rw [hji, buf_setBuf_self]
      rfl
    · rw [buf_setBuf_of_ne hji] at hj hv ⊢
      exact h.clean j hj hv hcl

theorem update_update_eq {β : Type*} (f : Nat → Nat → β) (x y : Nat) (v : β) (x' y' : Nat) :
    update f x (update (f x) y v) x' y' = if x' = x ∧ y' = y then v else f x' y' := by
  by_cases hx : x' = x
  · subst hx
    by_cases hy : y' = y
    · simp [hy]
    · simp [hy]
  · simp [hx]

theorem BufView.store (h : BufView d s) (v : α) (hi : (s.buf i).valid = true) : BufView d (s.store i v) := by
  have hview : ∀ dev b, (s.store i v).view d dev b =
      if dev = (s.buf i).dev ∧ b = (s.buf i).blockno then v else s.view d dev b := fun dev b => by
    simp only [BufState.view, BufState.store, update_update_eq]
    split <;> rfl
  have hne : ∀ j, j ≠ i → (s.store i v).buf j = s.buf j := fun j hj => buf_setBuf_of_ne hj
  have hself : (s.store i v).buf i = { s.buf i with data := v } := buf_setBuf_self _ _ _
  have hsame : ∀ j, ((s.store i v).buf j).dev = (s.buf j).dev ∧ ((s.store i v).buf j).blockno = (s.buf j).blockno ∧
      ((s.store i v).buf j).valid = (s.buf j).valid := fun j => by
    by_cases hj : j = i
    · rw [hj, hself]
      exact ⟨rfl, rfl, rfl⟩
    · rw [hne j hj]
      exact ⟨rfl, rfl, rfl⟩
  refine ⟨fun j k hj hk hk' => ?_, fun j hj hv => ?_, fun dev b hdev hno => ?_, fun j hj hv hcl => ?_⟩
  · rw [(hsame j).1] at hj hk
    rw [(hsame k).1] at hk
    rw [(hsame j).2.1, (hsame k).2.1] at hk'
    exact h.unique j k hj hk hk'
  · rw [hview, (hsame j).1, (hsame j).2.1]
    by_cases hji : j = i
    · rw [hji, hself, if_pos ⟨rfl, rfl⟩]
    · rw [hne j hji] at hj hv ⊢
      have hother : ¬ ((s.buf j).dev = (s.buf i).dev ∧ (s.buf j).blockno = (s.buf i).blockno) := fun hb =>
        hji (h.unique i j (hb.1 ▸ hj) hb.1 hb.2)
      rw [if_neg hother]
      exact h.cached j hj hv
  · have hother : ¬ (dev = (s.buf i).dev ∧ b = (s.buf i).blockno) := fun hb => by
      have := hno i (by rw [hself]; exact hb.1.symm) (by rw [hself]; exact hb.2.symm)
      rw [hself] at this
      simp [hi] at this
    rw [hview, if_neg hother]
    refine h.absent dev b hdev fun j hj hj' => ?_
    have := hno j
    rw [(hsame j).1, (hsame j).2.1, (hsame j).2.2] at this
    exact this hj hj'
  · have hji : j ≠ i := by
      rintro rfl
      simp [BufState.Clean, BufState.store] at hcl
    rw [hne j hji] at hj hv ⊢
    refine h.clean j hj hv ?_
    simpa [BufState.Clean, BufState.store, BufState.setBuf, update_of_ne hji] using hcl

theorem BufView.bwrite (h : BufView d s) (hi : (s.buf i).valid = true) : BufView d (s.bwrite i) := by
  have hdisk : ∀ dev b, (s.bwrite i).disk dev b =
      if dev = (s.buf i).dev ∧ b = (s.buf i).blockno then (s.buf i).data else s.disk dev b := fun dev b => by
    simp only [BufState.bwrite, update_update_eq]
  refine ⟨h.unique, h.cached, fun dev b hdev hno => ?_, fun j hj hv hcl => ?_⟩
  · have hother : ¬ (dev = (s.buf i).dev ∧ b = (s.buf i).blockno) := fun hb => by
      have hfalse := hno i hb.1.symm hb.2.symm
      have htrue : ((s.bwrite i).buf i).valid = true := hi
      rw [htrue] at hfalse
      cases hfalse
    rw [hdisk, if_neg hother]
    exact h.absent dev b hdev hno
  · rw [hdisk]
    by_cases hji : j = i
    · rw [hji]
      exact if_pos ⟨rfl, rfl⟩
    · have hother : ¬ ((s.buf j).dev = (s.buf i).dev ∧ (s.buf j).blockno = (s.buf i).blockno) := fun hb =>
        hji (h.unique i j (hb.1 ▸ hj) hb.1 hb.2)
      refine (if_neg hother).trans (h.clean j hj hv ?_)
      simpa [BufState.Clean, BufState.bwrite, update_of_ne hji] using hcl

theorem BufView.logWrite (h : BufView d s) : BufView d (s.logWrite i) := by
  unfold BufState.logWrite
  split
  · refine h.frame (sameBlocks_refcnt s i _) rfl rfl fun j hj => ?_
    by_cases hji : j = i
    · subst hji
      simp only [BufState.Clean, update_self, Nat.one_ne_zero, and_false, false_or] at hj
      exact Or.inr hj
    · simpa [BufState.Clean, BufState.setBuf, update_of_ne hji] using hj
  · rename_i hpin
    refine h.frame (fun j => ⟨rfl, rfl, rfl, rfl⟩) rfl rfl fun j hj => ?_
    by_cases hji : j = i
    · subst hji
      simp only [BufState.Clean, hpin, and_false, false_or] at hj
      exact Or.inr hj
    · simpa [BufState.Clean, update_of_ne hji] using hj

theorem BufView.bunpin (h : BufView d s) (hs : s.synced i = true) : BufView d (s.bunpin i) := by
  refine h.frame (sameBlocks_refcnt s i _) rfl rfl fun j hj => ?_
  by_cases hji : j = i
  · rw [hji]
    exact Or.inr hs
  · simpa [BufState.Clean, BufState.bunpin, BufState.setBuf, update_of_ne hji] using hj

end View

/-! ## One step: use of the buffers -/

section Use
variable [Fintype T] {s t : BufState T α} {i : Fin nbuf}

/-- No thread moves and no lock changes hands. -/
theorem BufUse.frame (h : BufUse s) (hlinks : t.links = s.links) (hpc : t.pc = s.pc) (hlock : t.lock = s.lock)
    (hb : SameBlocks s t ∨ ∀ j, (t.buf j).valid = (s.buf j).valid ∧ (t.buf j).dev = (s.buf j).dev ∧
      (t.buf j).blockno = (s.buf j).blockno)
    (hrefs : ∀ j, (t.buf j).refcnt - t.pins j = (s.buf j).refcnt - s.pins j)
    (hsaved : ∀ j, s.lock j = none → t.unsaved j = s.unsaved j) : BufUse t := by
  have hb : ∀ j, (t.buf j).valid = (s.buf j).valid ∧ (t.buf j).dev = (s.buf j).dev ∧
      (t.buf j).blockno = (s.buf j).blockno := by
    rcases hb with hb | hb
    · exact fun j => ⟨(hb j).1, (hb j).2.1, (hb j).2.2.1⟩
    · exact hb
  refine ⟨hlinks ▸ h.ring, fun j => ?_, fun p dev b j hr => ?_, fun p dev b j hf => ?_,
  fun j p hj => ?_, fun j hj => ?_⟩
  · have hold := h.refs j
    have hnew := hrefs j
    rw [hpc, hlock]
    omega
  · rw [(hb j).2.1, (hb j).2.2]
    exact h.reads p dev b j (hpc ▸ hr)
  · rw [hlock, (hb j).1]
    exact h.filling p dev b j (hpc ▸ hf)
  · rw [hpc, (hb j).1]
    exact h.held j p (hlock ▸ hj)
  · rw [hlock] at hj
    rw [hsaved j hj]
    exact h.saved j hj

/-- A buffer without references is not locked, pinned or asked for. -/
theorem BufUse.unused (h : BufUse s) (hi : (s.buf i).refcnt = 0) :
    s.lock i = none ∧ s.pins i = 0 ∧ ∀ q dev b, ¬ (s.pc q).Reads dev b i := by
  have hrefs := h.refs i
  have hlock : s.lock i = none := by
    cases hl : s.lock i with
    | none => rfl
    | some q =>
      rw [hl] at hrefs
      simp only [Option.toList_some, List.length_singleton] at hrefs
      omega
  refine ⟨hlock, by omega, fun q dev b hr => ?_⟩
  rcases hr with hr | hr
  · have hle := le_weigh (BufPc.refs i) s.pc q
    simp only [hr, BufPc.refs, if_true] at hle
    omega
  · rw [(h.filling q dev b i hr).1] at hlock
    cases hlock

variable [DecidableEq T] {p q : T} {c : BufPc} {dev b : Nat}

/-- Thread `p` moves to `c`. The other threads inside `bread()` find their buffers as they were. -/
theorem BufUse.move (h : BufUse s) (hpc : t.pc = update s.pc p c)
    (hring : ∃ l : List (Fin nbuf), IsRing t.links none (l.map some) ∧ ∀ i, i ∈ l)
    (hrefs : ∀ j, (t.buf j).refcnt + (s.lock j).toList.length + s.pins j + (s.pc p).refs j =
      (s.buf j).refcnt + (t.lock j).toList.length + t.pins j + c.refs j)
    (hothers : ∀ q dev b j, q ≠ p → (s.pc q).Reads dev b j → (t.buf j).dev = (s.buf j).dev ∧
      (t.buf j).blockno = (s.buf j).blockno ∧ (s.pc q = .fill dev b j → t.lock j = s.lock j ∧
      (t.buf j).valid = (s.buf j).valid))
    (hreads : ∀ dev b j, c.Reads dev b j → (t.buf j).dev = dev ∧ (t.buf j).blockno = b)
    (hfill : ∀ dev b j, c = .fill dev b j → t.lock j = some p ∧ (t.buf j).valid = false)
    (hheld : ∀ j q, t.lock j = some q → (t.buf j).valid = true ∨ q ≠ p ∧ (∃ dev b, s.pc q = .fill dev b j) ∨
      q = p ∧ ∃ dev b, c = .fill dev b j)
    (hsaved : ∀ j, t.lock j = none → t.unsaved j = false) : BufUse t := by
  have hself : t.pc p = c := by rw [hpc, update_self]
  have hne : ∀ q, q ≠ p → t.pc q = s.pc q := fun q hq => by rw [hpc, update_of_ne hq]
  refine ⟨hring, fun j => ?_, fun q dev b j hr => ?_, fun q dev b j hf => ?_, fun j q hj => ?_, hsaved⟩
  · have hw := weigh_update (BufPc.refs j) s.pc p c
    have hold := h.refs j
    have hnew := hrefs j
    rw [hpc]
    omega
  · by_cases hq : q = p
    · rw [hq, hself] at hr
      exact hreads dev b j hr
    · rw [hne q hq] at hr
      obtain ⟨hdev, hb, -⟩ := hothers q dev b j hq hr
      rw [hdev, hb]
      exact h.reads q dev b j hr
  · by_cases hq : q = p
    · rw [hq, hself] at hf
      rw [hq]
      exact hfill dev b j hf
    · rw [hne q hq] at hf
      obtain ⟨hl, hv⟩ := (hothers q dev b j hq (Or.inr hf)).2.2 hf
      rw [hl, hv]
      exact h.filling q dev b j hf
  · rcases hheld j q hj with hv | ⟨hq, hf⟩ | ⟨hq, hf⟩
    · exact Or.inl hv
    · rw [hne q hq]
      exact Or.inr hf
    · rw [hq, hself]
      exact Or.inr hf

omit [DecidableEq T] in
/-- What a thread that is not inside `bread()` has locked is valid. -/
theorem BufUse.valid (h : BufUse s) (hl : s.lock i = some p) (hp : ∀ dev b, s.pc p ≠ .fill dev b i) :
    (s.buf i).valid = true := by
  rcases h.held i p hl with hv | ⟨dev, b, hf⟩
  · exact hv
  · exact absurd hf (hp dev b)

omit [DecidableEq T] in
/-- The locks and the valid bits are as they were, and `p` was not reading. -/
theorem BufUse.held_of_same (h : BufUse s) (hp : ∀ dev b j, s.pc p ≠ .fill dev b j) (hl : t.lock = s.lock)
    (hv : ∀ j q, s.lock j = some q → (t.buf j).valid = (s.buf j).valid) (j : Fin nbuf) (q : T)
    (hj : t.lock j = some q) : (t.buf j).valid = true ∨ q ≠ p ∧ (∃ dev b, s.pc q = .fill dev b j) ∨
      q = p ∧ ∃ dev b, c = .fill dev b j := by
  rw [hl] at hj
  rcases h.held j q hj with hvalid | ⟨dev, b, hf⟩
  · exact Or.inl ((hv j q hj).trans hvalid)
  · refine Or.inr (Or.inl ⟨?_, dev, b, hf⟩)
    rintro rfl
    exact hp dev b j hf

theorem BufUse.hit (h : BufUse s) (hp : s.pc p = .idle) (hi : (s.buf i).dev = dev ∧ (s.buf i).blockno = b) :
    BufUse ((s.setBuf i { s.buf i with refcnt := (s.buf i).refcnt + 1 }).setPc p (.lock dev b i)) := by
  have hb := sameBlocks_refcnt s i ((s.buf i).refcnt + 1)
  refine h.move (p := p) (c := .lock dev b i) rfl h.ring (fun j => ?_)
    (fun q dev b j hq _ => ⟨(hb j).2.1, (hb j).2.2.1, fun _ => ⟨rfl, (hb j).1⟩⟩) (fun dev' b' j hr => ?_)
    (fun dev' b' j hf => by cases hf)
    (h.held_of_same (fun dev b j hf => by rw [hp] at hf; cases hf) rfl fun j q _ => (hb j).1) h.saved
  · by_cases hj : j = i
    · subst hj
      simp only [BufState.setPc, buf_setBuf_self, hp, BufPc.refs, if_true]
      simp only [BufState.setBuf]
      omega
    · simp only [BufState.setPc, buf_setBuf_of_ne hj, hp, BufPc.refs, if_neg (Ne.symm hj)]
      rfl
  · rcases hr with hr | hr
    · cases hr
      change ((s.setBuf i _).buf i).dev = _ ∧ ((s.setBuf i _).buf i).blockno = _
      rw [(hb i).2.1, (hb i).2.2.1]
      exact hi
    · cases hr

theorem BufUse.recycle (h : BufUse s) (hp : s.pc p = .idle) (hi : (s.buf i).refcnt = 0) :
    BufUse ((s.setBuf i ⟨false, dev, b, 1, (s.buf i).data⟩).setPc p (.lock dev b i)) := by
  obtain ⟨hlock, hpins, hnone⟩ := h.unused hi
  have hb : ∀ j, j ≠ i → ((s.setBuf i ⟨false, dev, b, 1, (s.buf i).data⟩).buf j) = s.buf j := fun j hj =>
    buf_setBuf_of_ne hj
  refine h.move (p := p) (c := .lock dev b i) rfl h.ring (fun j => ?_) (fun q dev' b' j hq hr => ?_)
    (fun dev' b' j hr => ?_) (fun dev' b' j hf => by cases hf)
    (h.held_of_same (fun dev b j hf => by rw [hp] at hf; cases hf) rfl fun j q hj => ?_) h.saved
  · by_cases hj : j = i
    · subst hj
      simp only [BufState.setPc, buf_setBuf_self, hp, BufPc.refs, if_true]
      simp only [BufState.setBuf, hi, hlock, hpins]
      rfl
    · simp only [BufState.setPc, buf_setBuf_of_ne hj, hp, BufPc.refs, if_neg (Ne.symm hj)]
      rfl
  · have hji : j ≠ i := by
      rintro rfl
      exact hnone q dev' b' hr
    change ((s.setBuf i _).buf j).dev = _ ∧ ((s.setBuf i _).buf j).blockno = _ ∧
      (_ → _ ∧ ((s.setBuf i _).buf j).valid = _)
    rw [hb j hji]
    exact ⟨rfl, rfl, fun _ => ⟨rfl, rfl⟩⟩
  · rcases hr with hr | hr
    · cases hr
      change ((s.setBuf i _).buf i).dev = _ ∧ ((s.setBuf i _).buf i).blockno = _
      rw [buf_setBuf_self]
      exact ⟨rfl, rfl⟩
    · cases hr
  · have hji : j ≠ i := by
      rintro rfl
      rw [hlock] at hj
      cases hj
    change ((s.setBuf i _).buf j).valid = _
    rw [hb j hji]

theorem BufUse.acquire (h : BufUse s) (hp : s.pc p = .lock dev b i) (hl : s.lock i = none) :
    BufUse (s.acquire p dev b i) := by
  have hreads := h.reads p dev b i (Or.inl hp)
  have hlock : ∀ j, j ≠ i → (s.acquire p dev b i).lock j = s.lock j := fun j hj => update_of_ne hj _ _
  have hlock' : (s.acquire p dev b i).lock i = some p := update_self _ _ _
  refine h.move (p := p) (c := if (s.buf i).valid then .idle else .fill dev b i) rfl h.ring (fun j => ?_)
    (fun q dev' b' j hq hr => ⟨rfl, rfl, fun hf => ⟨hlock j ?_, rfl⟩⟩) (fun dev' b' j hr => ?_)
    (fun dev' b' j hf => ?_) (fun j q hj => ?_) (fun j hj => ?_)
  · have hc : (if (s.buf i).valid then BufPc.idle else .fill dev b i).refs j = 0 := by split <;> rfl
    rw [hc, hp]
    by_cases hj : j = i
    · subst hj
      rw [hlock', hl]
      simp only [BufPc.refs, if_true, Option.toList_none, Option.toList_some, List.length_nil, List.length_singleton]
      change (s.buf j).refcnt + _ + (s.pins j : Int) + _ = (s.buf j).refcnt + _ + (s.pins j : Int) + _
      omega
    · rw [hlock j hj]
      simp only [BufPc.refs, if_neg (Ne.symm hj)]
      rfl
  · rintro rfl
    rw [(h.filling q dev' b' j hf).1] at hl
    cases hl
  · split at hr
    · rcases hr with hr | hr <;> cases hr
    · rcases hr with hr | hr
      · cases hr
      · cases hr
        exact hreads
  · split at hf
    · cases hf
    · rename_i hv
      cases hf
      have hv : (s.buf i).valid = false := by simpa using hv
      exact ⟨hlock', hv⟩
  · by_cases hji : j = i
    · rw [hji] at hj ⊢
      rw [hlock'] at hj
      cases hj
      cases hv : (s.buf i).valid with
      | true => exact Or.inl hv
      | false => exact Or.inr (Or.inr ⟨rfl, dev, b, by simp⟩)
    · rw [hlock j hji] at hj
      rcases h.held j q hj with hv | ⟨dev', b', hf⟩
      · exact Or.inl hv
      · refine Or.inr (Or.inl ⟨?_, dev', b', hf⟩)
        rintro rfl
        rw [hp] at hf
        cases hf
  · have hji : j ≠ i := by
      rintro rfl
      rw [hlock'] at hj
      cases hj
    rw [hlock j hji] at hj
    exact h.saved j hj

theorem BufUse.fill (h : BufUse s) (hp : s.pc p = .fill dev b i) : BufUse (s.fill p i) := by
  obtain ⟨hl, hv⟩ := h.filling p dev b i hp
  have hb : ∀ j, j ≠ i → (s.fill p i).buf j = s.buf j := fun j hj => buf_setBuf_of_ne hj
  have hself : (s.fill p i).buf i =
      { s.buf i with valid := true, data := s.disk (s.buf i).dev (s.buf i).blockno } := buf_setBuf_self _ _ _
  refine h.move (p := p) (c := .idle) rfl h.ring (fun j => ?_) (fun q dev' b' j hq hr => ?_)
    (fun dev' b' j hr => by rcases hr with hr | hr <;> cases hr) (fun dev' b' j hf => by cases hf) (fun j q hj => ?_)
    h.saved
  · have hrefcnt : ((s.fill p i).buf j).refcnt = (s.buf j).refcnt := by
      by_cases hj : j = i
      · rw [hj, hself]
      · rw [hb j hj]
    rw [hrefcnt, hp]
    rfl
  · by_cases hj : j = i
    · subst hj
      rw [hself]
      refine ⟨rfl, rfl, fun hf => ?_⟩
      rw [(h.filling q dev' b' j hf).1] at hl
      exact absurd (Option.some.inj hl) hq
    · rw [hb j hj]
      exact ⟨rfl, rfl, fun _ => ⟨rfl, rfl⟩⟩
  · by_cases hj' : j = i
    · rw [hj', hself]
      exact Or.inl rfl
    · rw [hb j hj']
      have hj : s.lock j = some q := hj
      rcases h.held j q hj with hv | ⟨dev', b', hf⟩
      · exact Or.inl hv
      · refine Or.inr (Or.inl ⟨?_, dev', b', hf⟩)
        rintro rfl
        rw [hp] at hf
        cases hf
        exact hj' rfl

theorem BufUse.drop (h : BufUse s) (hp : s.pc p = .drop i) : BufUse (s.drop p i) := by
  have hb := sameBlocks_refcnt s i ((s.buf i).refcnt - 1)
  refine h.move (p := p) (c := .idle) rfl ?_ (fun j => ?_)
    (fun q dev b j hq _ => ⟨(hb j).2.1, (hb j).2.2.1, fun _ => ⟨rfl, (hb j).1⟩⟩)
    (fun dev' b' j hr => by rcases hr with hr | hr <;> cases hr) (fun dev' b' j hf => by cases hf)
    (h.held_of_same (fun dev b j hf => by rw [hp] at hf; cases hf) rfl fun j q _ => (hb j).1) h.saved
  · obtain ⟨l, hr, hall⟩ := h.ring
    simp only [BufState.drop, BufState.setPc]
    split
    · exact ring_front hr hall
    · exact ⟨l, hr, hall⟩
  · by_cases hj : j = i
    · subst hj
      simp only [BufState.drop, BufState.setPc, buf_setBuf_self, hp, BufPc.refs, if_true]
      simp only [BufState.setBuf]
      omega
    · simp only [BufState.drop, BufState.setPc, buf_setBuf_of_ne hj, hp, BufPc.refs, if_neg (Ne.symm hj)]
      rfl

theorem BufUse.brelse (h : BufUse s) (hp : s.pc p = .idle) (hl : s.lock i = some p) (hu : s.unsaved i = false) :
    BufUse (s.brelse p i) := by
  have hlock : ∀ j, j ≠ i → (s.brelse p i).lock j = s.lock j := fun j hj => update_of_ne hj _ _
  have hlock' : (s.brelse p i).lock i = none := update_self _ _ _
  refine h.move (p := p) (c := .drop i) rfl h.ring (fun j => ?_)
    (fun q dev' b' j hq hr => ⟨rfl, rfl, fun hf => ⟨hlock j ?_, rfl⟩⟩)
    (fun dev' b' j hr => by rcases hr with hr | hr <;> cases hr) (fun dev' b' j hf => by cases hf) (fun j q hj => ?_)
    (fun j hj => ?_)
  · rw [hp]
    by_cases hj : j = i
    · subst hj
      rw [hlock', hl]
      simp only [BufPc.refs, if_true, Option.toList_none, Option.toList_some, List.length_nil, List.length_singleton]
      change (s.buf j).refcnt + _ + (s.pins j : Int) + _ = (s.buf j).refcnt + _ + (s.pins j : Int) + _
      omega
    · rw [hlock j hj]
      simp only [BufPc.refs, if_neg (Ne.symm hj)]
      rfl
  · rintro rfl
    rw [(h.filling q dev' b' j hf).1] at hl
    exact hq (Option.some.inj hl)
  · have hji : j ≠ i := by
      rintro rfl
      rw [hlock'] at hj
      cases hj
    rw [hlock j hji] at hj
    rcases h.held j q hj with hv | ⟨dev', b', hf⟩
    · exact Or.inl hv
    · refine Or.inr (Or.inl ⟨?_, dev', b', hf⟩)
      rintro rfl
      rw [hp] at hf
      cases hf
  · by_cases hji : j = i
    · rw [hji]
      exact hu
    · rw [hlock j hji] at hj
      exact h.saved j hj

omit [DecidableEq T] in
theorem BufUse.logWrite (h : BufUse s) (hl : s.lock i = some p) : BufUse (s.logWrite i) := by
  have hsaved : ∀ j, s.lock j = none → update s.unsaved i false j = s.unsaved j := fun j hj => by
    refine update_of_ne ?_ _ _
    rintro rfl
    rw [hl] at hj
    cases hj
  unfold BufState.logWrite
  split
  · rename_i hpin
    refine h.frame rfl rfl rfl (Or.inl (sameBlocks_refcnt s i _)) (fun j => ?_) hsaved
    by_cases hj : j = i
    · subst hj
      simp only [buf_setBuf_self, update_self, hpin]
      omega
    · simp only [buf_setBuf_of_ne hj, update_of_ne hj]
  · exact h.frame rfl rfl rfl (Or.inl fun j => ⟨rfl, rfl, rfl, rfl⟩) (fun j => rfl) hsaved

theorem BufUse.step (h : BufUse s) (hs : BufStep s p t) : BufUse t := by
  cases hs with
  | hit dev b i hp hi => exact h.hit hp hi
  | recycle dev b i hp hn hi => exact h.recycle hp hi
  | panic hp => exact ⟨h.ring, h.refs, h.reads, h.filling, h.held, h.saved⟩
  | acquire dev b i hp hl => exact h.acquire hp hl
  | fill dev b i hp => exact h.fill hp
  | drop i hp => exact h.drop hp
  | store i v hp hl =>
    have hne : ∀ j, s.lock j = none → j ≠ i := by
      rintro j hj rfl
      rw [hl] at hj
      cases hj
    refine h.frame rfl rfl rfl (Or.inr fun j => ?_) (fun j => ?_) fun j hj => update_of_ne (hne j hj) _ _
    · by_cases hj : j = i
      · subst hj
        simp [BufState.store]
      · simp [BufState.store, buf_setBuf_of_ne hj]
    · by_cases hj : j = i
      · subst hj
        simp only [BufState.store, buf_setBuf_self]
        rfl
      · simp only [BufState.store, buf_setBuf_of_ne hj]
        rfl
  | logWrite i hp hl => exact h.logWrite hl
  | bwrite i hp hl =>
    refine h.frame rfl rfl rfl (Or.inl fun j => ⟨rfl, rfl, rfl, rfl⟩) (fun j => rfl) fun j hj => ?_
    refine update_of_ne ?_ _ _
    rintro rfl
    rw [hl] at hj
    cases hj
  | bunpin i hp hl hpin hsync =>
    refine h.frame rfl rfl rfl (Or.inl (sameBlocks_refcnt s i _)) (fun j => ?_) fun j _ => rfl
    by_cases hj : j = i
    · subst hj
      simp only [BufState.bunpin, buf_setBuf_self, update_self]
      omega
    · simp only [BufState.bunpin, buf_setBuf_of_ne hj, update_of_ne hj]
  | brelse i hp hl hu => exact h.brelse hp hl hu

end Use

/-! ## Whole runs -/

section Run
variable [Fintype T] [DecidableEq T] {d : Nat → Nat → α} {s t : BufState T α} {p : T}

theorem BufView.step (h : BufView d s) (hu : BufUse s) (hs : BufStep s p t) : BufView d t := by
  cases hs with
  | hit dev b i hp hi => exact h.frame (sameBlocks_refcnt s i _) rfl rfl fun j hj => hj
  | recycle dev b i hp hn hi =>
    obtain ⟨l, hr, hall⟩ := hu.ring
    obtain ⟨hlock, hpins, -⟩ := hu.unused hi
    have hre := h.recycle (not_cached hr hall hn) (Or.inl ⟨hu.saved i hlock, hpins⟩)
    exact ⟨hre.unique, hre.cached, hre.absent, hre.clean⟩
  | panic hp => exact ⟨h.unique, h.cached, h.absent, h.clean⟩
  | acquire dev b i hp hl => exact ⟨h.unique, h.cached, h.absent, h.clean⟩
  | fill dev b i hp =>
    have hfill := h.fill (hu.filling p dev b i hp).2
    exact ⟨hfill.unique, hfill.cached, hfill.absent, hfill.clean⟩
  | drop i hp => exact h.frame (sameBlocks_refcnt s i _) rfl rfl fun j hj => hj
  | store i v hp hl => exact h.store v (hu.valid hl fun dev b hf => by rw [hp] at hf; cases hf)
  | logWrite i hp hl => exact h.logWrite
  | bwrite i hp hl => exact h.bwrite (hu.valid hl fun dev b hf => by rw [hp] at hf; cases hf)
  | bunpin i hp hl hpin hsync => exact h.bunpin hsync
  | brelse i hp hl hsaved => exact ⟨h.unique, h.cached, h.absent, h.clean⟩

variable [Inhabited α]

omit [DecidableEq T] in
theorem bufUse_init (d : Nat → Nat → α) : BufUse (.init d : BufState T α) where
  ring := ⟨_, isRing_binit, fun i => by simp⟩
  refs i := by
    have hzero : weigh (BufPc.refs i) (BufState.init d : BufState T α).pc = 0 := weigh_eq_zero fun _ => rfl
    rw [hzero]
    rfl
  reads p dev b i h := by rcases h with h | h <;> cases h
  filling p dev b i h := by cases h
  held i p h := by cases h
  saved i _ := rfl

omit [Fintype T] [DecidableEq T] in
theorem bufView_init (d : Nat → Nat → α) : BufView d (.init d : BufState T α) where
  unique i j h := absurd h (by simp [BufState.init])
  cached i h := absurd h (by simp [BufState.init])
  absent dev b _ _ := rfl
  clean i h := absurd h (by simp [BufState.init])

theorem buf_of_reachable (h : Reachable BufState.step (.init d) s) : BufUse s ∧ BufView d s :=
  h.invariant (P := fun s => BufUse s ∧ BufView d s) ⟨bufUse_init d, bufView_init d⟩ fun _ _ _ _ hi hs =>
    ⟨hi.1.step (bufStep_of_step hs), hi.2.step hi.1 (bufStep_of_step hs)⟩

omit [Fintype T] [Inhabited α] in
/-- Only `bget()` gives a buffer another block, and only one that is not referenced. -/
theorem block_kept (hs : BufStep s p t) {i : Fin nbuf} (hi : 0 < (s.buf i).refcnt) :
    (t.buf i).dev = (s.buf i).dev ∧ (t.buf i).blockno = (s.buf i).blockno := by
  have hupd : ∀ (j : Fin nbuf) (b : Buf α), b.dev = (s.buf j).dev → b.blockno = (s.buf j).blockno →
      (update s.buf j b i).dev = (s.buf i).dev ∧ (update s.buf j b i).blockno = (s.buf i).blockno := by
    intro j b hdev hb
    by_cases hij : i = j
    · subst hij
      rw [update_self]
      exact ⟨hdev, hb⟩
    · rw [update_of_ne hij]
      exact ⟨rfl, rfl⟩
  cases hs with
  | recycle dev b j hp hn hj =>
    have hij : i ≠ j := by
      rintro rfl
      omega
    exact ⟨congrArg Buf.dev (buf_setBuf_of_ne hij), congrArg Buf.blockno (buf_setBuf_of_ne hij)⟩
  | hit dev b j hp hj => exact hupd j _ rfl rfl
  | fill dev b j hp => exact hupd j _ rfl rfl
  | drop j hp => exact hupd j _ rfl rfl
  | store j v hp hl => exact hupd j _ rfl rfl
  | logWrite j hp hl =>
    unfold BufState.logWrite
    split
    · exact hupd j _ rfl rfl
    · exact ⟨rfl, rfl⟩
  | bunpin j hp hl hpin hsync => exact hupd j _ rfl rfl
  | panic hp | acquire dev b j hp hl | bwrite j hp hl | brelse j hp hl hu => exact ⟨rfl, rfl⟩

omit [Inhabited α] in
/-- `bread()` goes on with its buffer locked. -/
theorem BufUse.locked (hu : BufUse s) {i : Fin nbuf} {dev b : Nat} (hr : (s.pc p).Reads dev b i) (hs : BufStep s p t) :
    t.lock i = some p ∧ (t.buf i).dev = dev ∧ (t.buf i).blockno = b := by
  have hblock := hu.reads p dev b i hr
  rcases hr with hr | hr
  · cases hs with
    | acquire dev' b' j hp hl =>
      rw [hr] at hp
      cases hp
      exact ⟨update_self _ _ _, hblock⟩
    | _ => simp_all
  · cases hs with
    | fill dev' b' j hp =>
      rw [hr] at hp
      cases hp
      refine ⟨(hu.filling p dev b i hr).1, ?_⟩
      change ((s.setBuf i _).buf i).dev = dev ∧ ((s.setBuf i _).buf i).blockno = b
      rw [buf_setBuf_self]
      exact hblock
    | _ => simp_all

/-- **The buffer cache is a transparent view of the disk**: (a) no block is in two buffers; (b) a buffer with
references is not given another block; (c) the LRU list is a ring of all buffers; (d) `bread(dev, b)` returns, locked,
a buffer of that block with what was stored last through any buffer of it, or else what the disk held. -/
theorem cache_transparent (d : Nat → Nat → α) (s : BufState T α) (h : Reachable BufState.step (.init d) s) :
    (∀ i j, 1 ≤ (s.buf i).dev → (s.buf j).dev = (s.buf i).dev → (s.buf j).blockno = (s.buf i).blockno → j = i) ∧
    (∀ l t, s.step l = some t → ∀ i, 0 < (s.buf i).refcnt →
      (t.buf i).dev = (s.buf i).dev ∧ (t.buf i).blockno = (s.buf i).blockno) ∧
    (∃ l : List (Fin nbuf), IsRing s.links none (l.map some) ∧ l.Nodup ∧ ∀ i, i ∈ l) ∧
    (∀ p dev b i t, 1 ≤ dev → (s.pc p).Reads dev b i → s.step (p, .cont) = some t → t.pc p = .idle →
      t.lock i = some p ∧ (t.buf i).dev = dev ∧ (t.buf i).blockno = b ∧
        (t.buf i).data = (t.stored dev b).getD (d dev b)) := by
  obtain ⟨hu, hv⟩ := buf_of_reachable h
  refine ⟨hv.unique, fun l t hs i hi => block_kept (bufStep_of_step hs) hi, ?_, ?_⟩
  · obtain ⟨l, hr, hall⟩ := hu.ring
    exact ⟨l, hr, (List.nodup_cons.mp hr.nodup).2.of_map _, hall⟩
  · intro p dev b i t hdev hr hs hidle
    obtain ⟨hu', hv'⟩ := buf_of_reachable (h.next hs)
    obtain ⟨hl, rfl, rfl⟩ := hu.locked hr (bufStep_of_step hs)
    refine ⟨hl, rfl, rfl, hv'.cached i hdev (hu'.valid hl fun dev b hf => ?_)⟩
    rw [hidle] at hf
    cases hf

end Run

/-- Thread `false` stores 7 in block 33 and logs it; thread `true` reads the block. -/
def sharedBlockRun : List (Bool × BufCall Nat) :=
  [(false, .bread 1 33), (false, .cont), (true, .bread 1 33), (false, .cont), (false, .store 0 7), (false, .logWrite 0),
    (false, .brelse 0)]

def sharedBlock : BufState (Bool) Nat := runD BufState.step (.init fun _ _ => 5) sharedBlockRun

theorem cache_transparent_shared :
    ∃ t, sharedBlock.step (true, .cont) = some t ∧ t.pc true = .idle ∧ t.lock 0 = some true ∧
    (t.buf 0).blockno = 33 ∧ (t.buf 0).data = 7 := by
  have hrun : run BufState.step (.init fun _ _ => 5) sharedBlockRun = some sharedBlock :=
    run_eq_runD (by set_option maxRecDepth 20000 in decide)
  have hread : (sharedBlock.pc true).Reads 1 33 0 := Or.inl (by set_option maxRecDepth 20000 in decide)
  have hsome : (sharedBlock.step (true, .cont)).map (fun t => (t.pc true, t.stored 1 33)) = some (.idle, some 7) := by
    set_option maxRecDepth 20000 in decide
  obtain ⟨t, ht, heq⟩ := Option.map_eq_some_iff.mp hsome
  obtain ⟨hidle, hstored⟩ := Prod.mk.inj heq
  obtain ⟨-, -, -, hbread⟩ := cache_transparent _ _ ⟨_, hrun⟩
  obtain ⟨hl, -, hb, hdata⟩ := hbread true 1 33 0 t (Nat.le_refl 1) hread ht hidle
  rw [hstored] at hdata
  exact ⟨t, ht, hidle, hl, hb, hdata⟩

end Xv6
