import Mathlib.Data.List.TakeWhile
import Xv6.Fs.Files
import Xv6.Lib.Slots

/-!
# Directories as finite maps

* `View.dirents` : a directory as a table of slots, each free or with a name and an inode number;
* `Iget` : what `iget()` does to the inode table; `iput()` undoes it;
* `dirlookup_slots`, `dirlink_slots`, `clear_slots` : the calls are `lookup`, and `put` into the first free slot or into
  the slot of the name;
* `Made`, `directory_map` : all directories that `dirlink()` and the clearing of entries make are finite maps.
-/

namespace Xv6.Fs
open Hoare Splice Slots Bytes Function

variable {n : Nat}

/-! ## Names -/

/-- What `namecmp()` and `strncpy()` see of a name. -/
def cut (n : Nat) (name : List UInt8) : List UInt8 := (name.take n).takeWhile (· ≠ 0)

theorem cut_cons (n : Nat) (c : UInt8) (l : List UInt8) :
    cut (n + 1) (c :: l) = if c = 0 then [] else c :: cut n l := by
  rw [cut, List.take_succ_cons, List.takeWhile_cons]
  by_cases hc : c = 0
  · simp [hc]
  · simp [hc, cut]

theorem cut_nil (n : Nat) : cut n [] = [] := by rw [cut, List.take_nil, List.takeWhile_nil]

theorem cut_of_not_mem {name : List UInt8} (h : 0 ∉ name) : cut n name = name.take n := by
  refine List.takeWhile_eq_self_iff.mpr fun c hc => ?_
  have hne : c ≠ 0 := fun h0 => h (h0 ▸ List.mem_of_mem_take hc)
  simpa using hne

theorem cut_eq_nil_iff {l : List UInt8} : cut (n + 1) l = [] ↔ l.headD 0 = 0 := by
  cases l with
  | nil => simp [cut_nil]
  | cons c l =>
    rw [cut_cons]
    by_cases hc : c = 0 <;> simp [hc]

theorem cut_succ {l : List UInt8} (h : l.headD 0 ≠ 0) : cut (n + 1) l = l.headD 0 :: cut n l.tail := by
  cases l with
  | nil => exact absurd rfl h
  | cons c l =>
    have hc : c ≠ 0 := h
    rw [cut_cons, if_neg hc, List.headD_cons, List.tail_cons]

theorem strncmp_eq_zero_iff (n : Nat) (p q : List UInt8) : strncmp n p q = 0 ↔ cut n p = cut n q := by
  induction n generalizing p q with
  | zero => simp [strncmp, cut]
  | succ n ih =>
    rw [strncmp]
    by_cases hp : p.headD 0 = 0
    · rw [if_neg fun hc => hc.1 hp, cut_eq_nil_iff.mpr hp, hp, eq_comm (a := []), cut_eq_nil_iff]
      constructor
      · intro h
        apply UInt8.toNat_inj.mp
        rw [UInt8.toNat_zero] at h ⊢
        omega
      · intro h
        rw [h]
        rfl
    · by_cases hpq : p.headD 0 = q.headD 0
      · rw [if_pos ⟨hp, hpq⟩, ih, cut_succ hp, cut_succ (hpq ▸ hp), hpq]
        simp
      · rw [if_neg fun hc => hpq hc.2, cut_succ hp]
        constructor
        · intro h
          exact absurd (UInt8.toNat_inj.mp (by omega)) hpq
        · intro h
          have hq : q.headD 0 ≠ 0 := fun h0 => by
            rw [cut_eq_nil_iff.mpr h0] at h
            cases h
          rw [cut_succ hq] at h
          exact absurd (List.cons.inj h).1 hpq

/-! ## Slots -/

/-- The slot that the bytes of an entry stand for. -/
def slotOf (f : Nat → UInt8) : Option (List UInt8 × Nat) :=
  if le f 2 = 0 then none else some (cut dirsiz ((List.range dirsiz).map fun o => f (2 + o)), le f 2)

def View.dirents (v : View) (i : Nat) : List (Option (List UInt8 × Nat)) :=
  (List.range ((v.ino i).size.toNat / direntSize)).map fun k => slotOf fun o => v.byteAt i (direntSize * k + o)

theorem slotOf_congr {f g : Nat → UInt8} (h : ∀ o < direntSize, f o = g o) : slotOf f = slotOf g := by
  have hd : direntSize = 16 := rfl
  have hle : le f 2 = le g 2 := le_congr fun o ho => h o (by omega)
  have hmap : ((List.range dirsiz).map fun o => f (2 + o)) = (List.range dirsiz).map fun o => g (2 + o) :=
    List.map_congr_left fun o ho => h _ (by
      have hlt : o < 14 := List.mem_range.mp ho
      omega)
  rw [slotOf, slotOf, hle, hmap]

theorem slotOf_dirent {name : List UInt8} {inum : Nat} (h : 0 ∉ name) (h0 : 0 < inum) (hlt : inum < 65536) :
    slotOf (dirent inum name).byte = some (name.take dirsiz, inum) := by
  have hbytes : ∀ o < 2, (dirent inum name).byte o = byte inum o := fun o ho => if_pos ho
  have hinum : le (dirent inum name).byte 2 = inum := by
    rw [le_congr hbytes, le_byte]
    exact Nat.mod_eq_of_lt hlt
  have hname : ((List.range dirsiz).map fun o => (dirent inum name).byte (2 + o)) =
      name.take dirsiz ++ List.replicate (dirsiz - (name.take dirsiz).length) 0 := by
    apply List.ext_getElem
    · rw [List.length_map, List.length_range, List.length_append, List.length_replicate, List.length_take]
      omega
    · intro o ho ho'
      rw [List.getElem_map, List.getElem_range]
      show (if 2 + o < 2 then _ else (name.take dirsiz).getD (2 + o - 2) 0) = _
      rw [if_neg (by omega), Nat.add_sub_cancel_left, List.getElem_append]
      split
      · next hin => rw [List.getD_eq_getElem _ _ hin]
      · next hout => rw [List.getD_eq_default _ _ (by omega), List.getElem_replicate]
  have hcut : cut dirsiz (name.take dirsiz ++ List.replicate (dirsiz - (name.take dirsiz).length) 0) =
      name.take dirsiz := by
    have hall : ∀ c ∈ name.take dirsiz, c ≠ 0 := fun c hc h0 => h (h0 ▸ List.mem_of_mem_take hc)
    rw [cut, List.take_of_length_le (by rw [List.length_append, List.length_replicate, List.length_take]; omega),
      List.takeWhile_append_of_pos (by simpa using hall)]
    cases dirsiz - (name.take dirsiz).length with
    | zero => simp
    | succ m => simp [List.replicate_succ]
  rw [slotOf, hinum, if_neg (Nat.ne_of_gt h0), hname, hcut]

theorem slotOf_zero : slotOf (fun _ => 0) = none := by
  rw [slotOf, le_zero, if_pos rfl]

/-! ## The inode table -/

/-- `iget()` has taken a reference to an entry of the table, in use or free. -/
inductive Iget (inum : Nat) (s : FsState) (ip : Ip) : FsState → Prop
  | found (href : 0 < (s.itable ip).ref) (hinum : (s.itable ip).inum = inum) :
      Iget inum s ip (s.setInode ip { s.itable ip with ref := (s.itable ip).ref + 1 })
  | fresh (href : (s.itable ip).ref = 0) :
      Iget inum s ip (s.setInode ip { s.itable ip with inum := inum, ref := 1, valid := false })

section
variable {sb : Superblock} {R : FsPanic → Prop} {s t : FsState} {ip : Ip} {inum : Nat}

theorem iget_runs : Runs (fun e => e = .noInodes ∧ ∀ ip, (s.itable ip).ref ≠ 0) (iget inum) s fun ip t =>
    Iget inum s ip t := by
  refine .get_bind ?_
  cases hfind : (List.finRange ninode).find? fun i => decide (0 < (s.itable i).ref ∧ (s.itable i).inum = inum) with
  | some ip =>
    obtain ⟨href, hin⟩ : 0 < (s.itable ip).ref ∧ (s.itable ip).inum = inum := by simpa using List.find?_some hfind
    exact .modify_bind (.pure (.found href hin))
  | none =>
    dsimp only
    cases hfree : (List.finRange ninode).find? fun i => decide ((s.itable i).ref = 0) with
    | none =>
      refine .throw ⟨rfl, fun ip => ?_⟩
      simpa using List.find?_eq_none.mp hfree ip (List.mem_finRange ip)
    | some ip =>
      have href : (s.itable ip).ref = 0 := by simpa using List.find?_some hfree
      exact .modify_bind (.pure (.fresh href))

theorem Iget.inum_eq (h : Iget inum s ip t) : (t.itable ip).inum = inum := by
  cases h with
  | found href hinum =>
    rw [itable_setInode]
    exact hinum
  | fresh href => rw [itable_setInode]

theorem Iget.rest (h : Iget inum s ip t) : t = { s with itable := t.itable } := by
  cases h <;> rfl

/-- `iput()` gives back the reference, and nothing else happens. -/
theorem Iget.iput (h : Iget inum s ip t) : Runs R (iput sb ip) t fun _ u => u = { s with itable := u.itable } ∧
    ∀ jp, 0 < (s.itable jp).ref → u.itable jp = s.itable jp := by
  refine .get_bind (.ite (fun hc => ?_) fun _ => .of_modify ?_)
  · cases h with
    | found href hinum =>
      rw [itable_setInode] at hc
      have hone : (s.itable ip).ref + 1 = 1 := hc.1
      omega
    | fresh href =>
      rw [itable_setInode] at hc
      exact Bool.noConfusion hc.2.1
  · cases h with
    | found href hinum =>
      refine ⟨rfl, fun jp hj => ?_⟩
      rw [itable_setInode, setInode_setInode]
      by_cases hji : jp = ip
      · rw [hji, itable_setInode]
        show { s.itable ip with ref := (s.itable ip).ref + 1 - 1 } = _
        rw [Int.add_sub_cancel]
      · exact update_of_ne hji ..
    | fresh href =>
      refine ⟨rfl, fun jp hj => ?_⟩
      rw [itable_setInode, setInode_setInode]
      have hji : jp ≠ ip := by
        rintro rfl
        omega
      exact update_of_ne hji ..

end

/-! ## Directories as tables -/

/-- A call has the lock of directory `i`. -/
structure HoldsDir (sb : Superblock) (X : List Nat) (i : Nat) (dp : Ip) (s : FsState) :
    Prop extends Holds sb X dp s where
  inum : (s.itable dp).inum = i
  ref : 0 < (s.itable dp).ref
  type : (s.itable dp).din.type = tDir
  whole : (s.itable dp).din.size.toNat % direntSize = 0

/-- The call is in a transaction. -/
structure LockedDir (sb : Superblock) (X : List Nat) (i : Nat) (dp : Ip) (s : FsState) : Prop
    extends HoldsDir sb X i dp s where
  outstanding : 1 ≤ s.outstanding

section
variable {sb : Superblock} {R : FsPanic → Prop} {X : List Nat} {i : Nat} {dp : Ip} {s t : FsState} {name : List UInt8}

theorem LockedDir.congr (h : LockedDir sb X i dp s) (hdisk : t.disk = s.disk) (hdp : t.itable dp = s.itable dp)
    (hout : t.outstanding = s.outstanding) : LockedDir sb X i dp t := by
  refine ⟨⟨⟨?_, ?_, ?_, ?_⟩, ?_, ?_, ?_, ?_⟩, ?_⟩
  · rw [hdisk]
    exact h.law
  · rw [hdisk, hdp]
    exact h.live
  · rw [hdisk, hdp]
    exact h.synced
  · rw [hdisk, hdp]
    exact h.full
  · rw [hdp, h.inum]
  · rw [hdp]
    exact h.ref
  · rw [hdp, h.type]
  · rw [hdp, h.whole]
  · rw [hout]
    exact h.outstanding

theorem HoldsDir.dirents_eq (h : HoldsDir sb X i dp s) : (sb.view s.disk).dirents i =
    (List.range ((s.itable dp).din.size.toNat / direntSize)).map fun k =>
      slotOf fun o => (sb.view s.disk).byteAt i (direntSize * k + o) := by
  rw [View.dirents, h.synced, h.inum]

theorem HoldsDir.length (h : HoldsDir sb X i dp s) :
    direntSize * ((sb.view s.disk).dirents i).length = (s.itable dp).din.size.toNat := by
  rw [h.dirents_eq, List.length_map, List.length_range]
  have hdiv := Nat.div_add_mod (s.itable dp).din.size.toNat direntSize
  rw [h.whole] at hdiv
  exact hdiv

theorem drop_dirents {v : View} {k : Nat} (hk : k < (v.dirents i).length) :
    (v.dirents i).drop k = (slotOf fun o => v.byteAt i (direntSize * k + o)) :: (v.dirents i).drop (k + 1) := by
  rw [List.drop_eq_getElem_cons hk]
  simp only [View.dirents, List.getElem_map, List.getElem_range]

/-- What `readi()` returns of an entry. -/
theorem readDirent_bytes {e : FsPanic} {k : Nat} (h : HoldsDir sb X i dp s)
    (hk : k < ((sb.view s.disk).dirents i).length) :
    Runs R (readDirent sb e dp (direntSize * k)) s fun de t => t = s ∧
      de = (List.range direntSize).map fun o => (sb.view s.disk).byteAt i (direntSize * k + o) := by
  have hlen := h.length
  have hd : direntSize = 16 := rfl
  have hsize := (s.itable dp).din.size.toNat_lt
  have hin : direntSize * k + direntSize ≤ (s.itable dp).din.size.toNat := by
    rw [← hlen, ← Nat.mul_succ]
    exact Nat.mul_le_mul_left _ hk
  refine .seq (readi_contents h.toHolds (by decide) (Nat.le_refl _)) ?_
  rintro r t ⟨rfl, rfl⟩
  have hnot : ¬ ((t.itable dp).din.size.toNat < direntSize * k ∨ 2 ^ 32 ≤ direntSize * k + direntSize) := by omega
  rw [if_neg hnot, h.contents, map_range_slice, Nat.min_eq_left (by omega), h.inum]
  refine .ite (fun _ => .pure ⟨rfl, rfl⟩) fun hc => absurd ?_ hc
  rw [List.length_map, List.length_range]

theorem direntInum_bytes (f : Nat → UInt8) : direntInum ((List.range direntSize).map f) = le f 2 := by
  refine le_congr fun o ho => ?_
  have hlt : o < direntSize := Nat.lt_trans ho (by decide)
  rw [List.getD_eq_getElem _ _ (by rw [List.length_map, List.length_range]; exact hlt), List.getElem_map,
    List.getElem_range]

theorem namecmp_bytes (f : Nat → UInt8) : namecmp name (((List.range direntSize).map f).drop 2) = 0 ↔
    cut dirsiz ((List.range dirsiz).map fun o => f (2 + o)) = cut dirsiz name := by
  rw [namecmp, strncmp_eq_zero_iff, map_range_drop, eq_comm]
  rfl

theorem slot_lt_iff (h : HoldsDir sb X i dp s) {k : Nat} :
    direntSize * k < (s.itable dp).din.size.toNat ↔ k < ((sb.view s.disk).dirents i).length := by
  rw [← h.length, show direntSize = 16 from rfl]
  omega

theorem dirlookupLoop_slots (name : List UInt8) (h : HoldsDir sb X i dp s) (fuel : Nat) :
    ∀ k, k ≤ ((sb.view s.disk).dirents i).length →
    ((sb.view s.disk).dirents i).length < k + fuel →
    Runs (fun e => e = .noInodes ∧ ∀ ip, (s.itable ip).ref ≠ 0) (dirlookupLoop sb dp name fuel (direntSize * k)) s
      fun r t => match lookupFrom (cut dirsiz name) k (((sb.view s.disk).dirents i).drop k) with
        | none => r = none ∧ t = s
        | some (inum, j) => ∃ ip, r = some (ip, direntSize * j) ∧ Iget inum s ip t := by
  induction fuel with
  | zero => exact fun k hk hfuel => absurd hfuel (by omega)
  | succ fuel ih =>
    intro k hk hfuel
    refine .get_bind (.ite (fun hlt => ?_) fun hge => ?_)
    · have hklt := (slot_lt_iff h).mp hlt
      refine .seq (readDirent_bytes h hklt) ?_
      rintro de t ⟨rfl, rfl⟩
      have hnext := ih (k + 1) hklt (by omega)
      rw [drop_dirents hklt]
      rw [direntInum_bytes, slotOf]
      refine .ite (fun hz => ?_) fun hz => .ite (fun hname => ?_) fun hname => ?_
      · rw [if_pos hz, lookupFrom]
        exact hnext
      · rw [if_neg hz, lookupFrom, if_pos ((namecmp_bytes _).mp hname)]
        exact .seq iget_runs fun ip u hu => .pure ⟨ip, rfl, hu⟩
      · rw [if_neg hz, lookupFrom, if_neg fun hc => hname ((namecmp_bytes _).mpr hc)]
        exact hnext
    · rw [slot_lt_iff h] at hge
      rw [List.drop_of_length_le (by omega)]
      exact .pure ⟨rfl, rfl⟩

theorem turns_eq (h : HoldsDir sb X i dp s) : turns s dp = ((sb.view s.disk).dirents i).length + 1 := by
  rw [turns, h.dirents_eq, List.length_map, List.length_range]

/-- **`dirlookup()`** finds the first slot with the name, and takes a reference to its inode. -/
theorem dirlookup_slots (name : List UInt8) (h : HoldsDir sb X i dp s) :
    Runs (fun e => e = .noInodes ∧ ∀ ip, (s.itable ip).ref ≠ 0) (dirlookup sb dp name) s
      fun r t => match lookup ((sb.view s.disk).dirents i) (cut dirsiz name) with
        | none => r = none ∧ t = s
        | some (inum, k) => ∃ ip, r = some (ip, direntSize * k) ∧ Iget inum s ip t := by
  refine .get_bind (.seq (Q := fun _ t => t = s) (.ite (fun hc => absurd h.type hc) fun _ => .pure rfl) ?_)
  rintro _ t rfl
  have hloop := dirlookupLoop_slots name h (turns t dp) 0 (Nat.zero_le _) (by rw [turns_eq h]; omega)
  rw [Nat.mul_zero, List.drop_zero] at hloop
  exact hloop

/-- The scan of `dirlink()` stops at the first free slot. -/
theorem emptyEntry_slots (h : HoldsDir sb X i dp s) (fuel : Nat) : ∀ k, k ≤ ((sb.view s.disk).dirents i).length →
    ((sb.view s.disk).dirents i).length < k + fuel →
    Runs R (emptyEntry sb dp fuel (direntSize * k)) s fun off t => t = s ∧
      off = direntSize * (k + free (((sb.view s.disk).dirents i).drop k)) := by
  induction fuel with
  | zero => exact fun k hk hfuel => absurd hfuel (by omega)
  | succ fuel ih =>
    intro k hk hfuel
    refine .get_bind (.ite (fun hlt => ?_) fun hge => ?_)
    · have hklt := (slot_lt_iff h).mp hlt
      refine .seq (readDirent_bytes h hklt) ?_
      rintro de t ⟨rfl, rfl⟩
      have hnext := ih (k + 1) hklt (by omega)
      rw [drop_dirents hklt, direntInum_bytes, slotOf, free, List.findIdx_cons]
      refine .ite (fun hz => ?_) fun hz => ?_
      · rw [if_pos hz]
        exact .pure ⟨rfl, rfl⟩
      · rw [if_neg hz]
        refine hnext.mono fun off u ⟨hu, hoff⟩ => ⟨hu, ?_⟩
        rw [hoff, Nat.add_assoc, Nat.add_comm 1]
        rfl
    · rw [slot_lt_iff h] at hge
      rw [List.drop_of_length_le (by omega)]
      exact .pure ⟨rfl, rfl⟩

/-! ## Writing an entry -/

theorem getElem?_dirents (v : View) (i j : Nat) : (v.dirents i)[j]? =
    if j < (v.ino i).size.toNat / direntSize then some (slotOf fun o => v.byteAt i (direntSize * j + o)) else none := by
  rw [View.dirents, List.getElem?_map]
  by_cases hj : j < (v.ino i).size.toNat / direntSize
  · rw [if_pos hj, List.getElem?_range hj]
    rfl
  · rw [if_neg hj, List.getElem?_eq_none (by rw [List.length_range]; omega)]
    rfl

section
variable {src : Src} {k tot : Nat}

theorem LockedDir.updated (h : LockedDir sb X i dp s) (ht : Updated sb X dp src s (direntSize * k) tot tot t)
    (htot : tot = direntSize ∨ tot = 0) : LockedDir sb X i dp t where
  toHolds := ht.holds
  inum := by rw [ht.inum, h.inum]
  ref := by
    rw [ht.inode]
    exact h.ref
  type := by rw [ht.din, h.type]
  whole := by
    have hw := h.whole
    rw [ht.size]
    simp only [direntSize] at *
    omega
  outstanding := by
    rw [ht.outstanding]
    exact h.outstanding

/-- The bytes of an entry that has not been written to. -/
theorem Updated.entry_of_ne (ht : Updated sb X dp src s (direntSize * k) tot tot t) (htot : tot ≤ direntSize) {j : Nat}
    (hj : j ≠ k ∨ tot = 0)
    (hin : direntSize * j + direntSize ≤ max (s.itable dp).din.size.toNat (direntSize * k + tot)) :
    (slotOf fun o => (sb.view t.disk).byteAt (s.itable dp).inum (direntSize * j + o)) =
      slotOf fun o => (sb.view s.disk).byteAt (s.itable dp).inum (direntSize * j + o) := by
  refine slotOf_congr fun o ho => ?_
  rw [ht.bytes _ (by omega)]
  refine if_neg fun hc => ?_
  simp only [direntSize] at *
  omega

theorem Updated.dirents_put (h : LockedDir sb X i dp s)
    (ht : Updated sb X dp src s (direntSize * k) direntSize direntSize t)
    (hk : k ≤ ((sb.view s.disk).dirents i).length) :
    (sb.view t.disk).dirents i = put ((sb.view s.disk).dirents i) k (slotOf src.byte) := by
  have hd : direntSize = 16 := rfl
  have hlen := h.length
  have hlen' := (h.updated ht (.inl rfl)).length
  have hsize := ht.size
  have hself : (s.itable dp).inum = i := h.inum
  rw [← hlen', ← hlen] at hsize
  have hmax : ((sb.view t.disk).dirents i).length = max ((sb.view s.disk).dirents i).length (k + 1) := by
    rw [hd] at hsize
    omega
  apply List.ext_getElem?
  intro j
  rw [getElem?_put hk]
  by_cases hj : j < ((sb.view t.disk).dirents i).length
  · have hdiv : j < ((sb.view t.disk).ino i).size.toNat / direntSize := by
      rwa [View.dirents, List.length_map, List.length_range] at hj
    rw [getElem?_dirents, if_pos hdiv]
    by_cases hjk : j = k
    · rw [if_pos hjk, hjk]
      congr 1
      refine slotOf_congr fun o ho => ?_
      have hbyte := ht.bytes (direntSize * k + o) (by omega)
      rw [hself, if_pos (by omega), Nat.add_sub_cancel_left] at hbyte
      exact hbyte
    · have hj' : j < ((sb.view s.disk).dirents i).length := by omega
      have hdiv' : j < ((sb.view s.disk).ino i).size.toNat / direntSize := by
        rwa [View.dirents, List.length_map, List.length_range] at hj'
      have hsame := ht.entry_of_ne (Nat.le_refl _) (.inl hjk) (by rw [← hlen, hd] at *; omega)
      rw [hself] at hsame
      rw [if_neg hjk, getElem?_dirents, if_pos hdiv', hsame]
  · have hjk : j ≠ k := by omega
    rw [if_neg hjk, List.getElem?_eq_none (by omega), List.getElem?_eq_none (by omega)]

theorem Updated.dirents_zero (h : LockedDir sb X i dp s) (ht : Updated sb X dp src s (direntSize * k) 0 0 t)
    (hk : k ≤ ((sb.view s.disk).dirents i).length) : (sb.view t.disk).dirents i = (sb.view s.disk).dirents i := by
  have hd : direntSize = 16 := rfl
  have hlen := h.length
  have hsize : (t.itable dp).din.size.toNat = (s.itable dp).din.size.toNat := by
    rw [ht.size, ← hlen, hd]
    omega
  rw [(h.updated ht (.inr rfl)).dirents_eq, h.dirents_eq, hsize]
  refine List.map_congr_left fun j hj => ?_
  have hlt := List.mem_range.mp hj
  have hsame := ht.entry_of_ne (j := j) (Nat.zero_le _) (.inr rfl) (by rw [hd] at *; omega)
  rwa [h.inum] at hsame

/-- **The write of an entry** into a slot, or at the end of the directory. Only there it can fail, and changes nothing.
-/
theorem writeDirent_slots (src : Src) (h : LockedDir sb X i dp s) (hread : direntSize ≤ src.readable)
    (hk : k ≤ ((sb.view s.disk).dirents i).length) :
    Runs (fun e => e = .tooBig ∧ ¬ (s.lh.Nodup ∧ s.lh.length + 13 < logblocks))
      (writei sb dp src (direntSize * k) direntSize) s fun r t => LockedDir sb X i dp t ∧
        (r = some direntSize ∧ (sb.view t.disk).dirents i = put ((sb.view s.disk).dirents i) k (slotOf src.byte) ∨
          r ≠ some direntSize ∧ (sb.view t.disk).dirents i = (sb.view s.disk).dirents i ∧
            k = ((sb.view s.disk).dirents i).length ∧ (maxfile * bsize < direntSize * k + direntSize ∨
              t.DiskFull sb)) := by
  have hd : direntSize = 16 := rfl
  have hlen := h.length
  have hlaw := writei_law (R := fun e => e = .tooBig) (n := direntSize) src (direntSize * k) h.toHolds
    ⟨rfl, fun hc => absurd hc (Nat.not_lt.mpr h.outstanding)⟩ (by decide)
  refine (hlaw.unless fun hlog => writei_logged 3 ⟨hlog.1, fun _ hb => hb, h.outstanding⟩ hlog.2 h.toHolds.noHoles
    (by decide)).mono fun r t hr => ?_
  rcases hr with ⟨hc, rfl, rfl⟩ | ⟨hc, tot, w, rfl, hle, -, ht, hal, hw⟩
  · have hfull := h.full
    refine ⟨h, .inr ⟨(Option.some_ne_none _).symm, rfl, ?_, .inl ?_⟩⟩
    · -- what is in the file is below its largest size
      by_contra hne
      have hin := (hfull.byte (x := direntSize * k + (direntSize - 1)) (by rw [← hlen, hd] at *; omega)).1
      have hmf : maxfile = 268 := rfl
      simp only [direntSize, bsize] at *
      omega
    · have hmf : maxfile = 268 := rfl
      simp only [direntSize, bsize] at *
      omega
  · obtain ⟨rfl, hdisk⟩ := hw hread
    have htot : w = direntSize ∨ w = 0 := by
      simp only [direntSize, bsize] at *
      omega
    refine ⟨h.updated ht htot, ?_⟩
    rcases htot with rfl | rfl
    · exact .inl ⟨rfl, ht.dirents_put h hk⟩
    · obtain ⟨hfull, hlow⟩ := hdisk (by decide)
      refine .inr ⟨by decide, ht.dirents_zero h hk, ?_, .inr hfull⟩
      rw [← hlen, hd] at hlow
      omega

end

/-! ## Linking and clearing -/

/-- The panics of the calls on a directory: the inode table has no free entry, or the log no space. -/
def dirPanics (s : FsState) (e : FsPanic) : Prop :=
  (e = .noInodes ∧ ∀ ip, (s.itable ip).ref ≠ 0) ∨ (e = .tooBig ∧ ¬ (s.lh.Nodup ∧ s.lh.length + 13 < logblocks))

/-- **`dirlink()`** refuses a name that is there, and otherwise writes the entry into the first free slot. -/
theorem dirlink_slots (name : List UInt8) (inum : Nat) (h : LockedDir sb X i dp s) :
    Runs (dirPanics s) (dirlink sb dp name inum) s fun r t => LockedDir sb X i dp t ∧
      match lookup ((sb.view s.disk).dirents i) (cut dirsiz name) with
      | some _ => r = false ∧ (sb.view t.disk).dirents i = (sb.view s.disk).dirents i
      | none =>
        Runs (fun _ => False) 
          (writei sb dp (dirent inum name) (direntSize * free ((sb.view s.disk).dirents i)) direntSize) s
          (fun q _ => r = decide (q = some direntSize)) ∧
        (r = true ∧ (sb.view t.disk).dirents i =
            put ((sb.view s.disk).dirents i) (free ((sb.view s.disk).dirents i)) (slotOf (dirent inum name).byte) ∨
          r = false ∧ (sb.view t.disk).dirents i = (sb.view s.disk).dirents i ∧
            free ((sb.view s.disk).dirents i) = ((sb.view s.disk).dirents i).length ∧
            (maxfile * bsize < direntSize * ((sb.view s.disk).dirents i).length + direntSize ∨ t.DiskFull sb)) := by
  refine .seq ((dirlookup_slots name h.toHoldsDir).weaken fun _ he => .inl he) fun r t hr => ?_
  cases hl : lookup ((sb.view s.disk).dirents i) (cut dirsiz name) with
  | some p =>
    rw [hl] at hr
    obtain ⟨ip, rfl, hget⟩ := hr
    refine .seq hget.iput fun _ u ⟨hu, hrefs⟩ => .pure ⟨?_, rfl, ?_⟩
    · refine h.congr ?_ (hrefs dp h.ref) ?_
      · rw [hu]
      · rw [hu]
    · rw [hu]
  | none =>
    rw [hl] at hr
    obtain ⟨rfl, rfl⟩ := hr
    have hscan := emptyEntry_slots (R := dirPanics t) h.toHoldsDir (turns t dp) 0 (Nat.zero_le _)
      (by rw [turns_eq h.toHoldsDir]; omega)
    rw [Nat.mul_zero, List.drop_zero, Nat.zero_add] at hscan
    refine .get_bind (.seq hscan ?_)
    rintro _ t ⟨rfl, rfl⟩
    have hwrite := writeDirent_slots (dirent inum name) h (Nat.le_refl _)
      (free_le ((sb.view t.disk).dirents i))
    refine .seq ((hwrite.self).weaken fun _ he => .inr he) fun q u ⟨hq, hu, hcase⟩ => .pure ⟨hu, ?_, ?_⟩
    · rw [Runs, hq]
    · rcases hcase with ⟨hq, hput⟩ | ⟨hq, hsame, hend, hwhy⟩
      · exact .inl ⟨decide_eq_true hq, hput⟩
      · rw [hend] at hwhy
        exact .inr ⟨decide_eq_false hq, hsame, hend, hwhy⟩

/-- What is in the directory depends on its contents alone. -/
theorem dirents_of_contents {v v' : View} (h : v'.contents i = v.contents i) : v'.dirents i = v.dirents i := by
  have hsize : (v'.ino i).size.toNat = (v.ino i).size.toNat := by
    have hlen := congrArg List.length h
    rwa [View.contents, View.contents, List.length_map, List.length_map, List.length_range, List.length_range] at hlen
  rw [View.contents, View.contents, hsize] at h
  have hbytes : ∀ x < (v.ino i).size.toNat, v'.byteAt i x = v.byteAt i x := fun x hx =>
    List.map_inj_left.mp h x (List.mem_range.mpr hx)
  rw [View.dirents, View.dirents, hsize]
  refine List.map_congr_left fun k hk => slotOf_congr fun o ho => hbytes _ ?_
  have hlt := List.mem_range.mp hk
  simp only [direntSize] at *
  omega

/-- The directories that calls make: a fresh one is empty, `dirlink()` adds to it, and `sys_unlink()` clears the entry
of a name, where `dirlookup()` finds it; in between, other calls leave its contents alone. -/
inductive Made (sb : Superblock) (i : Nat) : Ip → FsState → Prop
  | fresh {X : List Nat} {dp : Ip} {s : FsState} (h : LockedDir sb X i dp s)
      (h0 : (s.itable dp).din.size = 0) : Made sb i dp s
  | link {dp : Ip} {s t : FsState} {name : List UInt8} {inum : Nat} {r : Bool} (h : Made sb i dp s) (hname : 0 ∉ name)
      (hpos : 0 < inum) (hlt : inum < 65536) (hrun : dirlink sb dp name inum s = .ok (r, t)) : Made sb i dp t
  | clear {dp : Ip} {s t : FsState} {name : List UInt8} {inum k : Nat} {r : Option Nat} (h : Made sb i dp s)
      (hfound : lookup ((sb.view s.disk).dirents i) (cut dirsiz name) = some (inum, k))
      (hrun : writei sb dp ⟨fun _ => 0, direntSize⟩ (direntSize * k) direntSize s = .ok (r, t)) : Made sb i dp t
  | other {X : List Nat} {dp dp' : Ip} {s t : FsState} (h : Made sb i dp s) (ht : LockedDir sb X i dp' t)
      (hsame : (sb.view t.disk).contents i = (sb.view s.disk).contents i) : Made sb i dp' t

theorem Made.table (h : Made sb i dp s) : (∃ X, LockedDir sb X i dp s) ∧ Distinct ((sb.view s.disk).dirents i) := by
  induction h with
  | fresh h h0 =>
    refine ⟨⟨_, h⟩, ?_⟩
    rw [h.dirents_eq, h0]
    intro j _ _ _ _ hj
    cases hj
  | link h hname hpos hlt hrun ih =>
    obtain ⟨⟨X, hdir⟩, hdist⟩ := ih
    have hpost := (dirlink_slots _ _ hdir).of_ok hrun
    rename_i dp s t name inum r
    cases hl : lookup ((sb.view s.disk).dirents i) (cut dirsiz name) with
    | some p =>
      rw [hl] at hpost
      refine ⟨⟨X, hpost.1⟩, ?_⟩
      rw [hpost.2.2]
      exact hdist
    | none =>
      rw [hl] at hpost
      refine ⟨⟨X, hpost.1⟩, ?_⟩
      rcases hpost.2.2 with ⟨-, hput⟩ | ⟨-, hsame, -⟩
      · rw [hput, slotOf_dirent hname hpos hlt, ← cut_of_not_mem hname]
        exact (hdist.insert hl inum).1
      · rw [hsame]
        exact hdist
  | clear h hfound hrun ih =>
    obtain ⟨⟨X, hdir⟩, hdist⟩ := ih
    have hpost := (writeDirent_slots _ hdir (Nat.le_refl direntSize) (Nat.le_of_lt (lookup_lt hfound))).of_ok hrun
    refine ⟨⟨X, hpost.1⟩, ?_⟩
    rcases hpost.2 with ⟨-, hput⟩ | ⟨-, hsame, -⟩
    · rw [hput, slotOf_zero]
      exact (hdist.clear hfound).1
    · rw [hsame]
      exact hdist
  | other h ht hsame ih =>
    refine ⟨⟨_, ht⟩, ?_⟩
    rw [dirents_of_contents hsame]
    exact ih.2

/-- **A directory is a finite map on names of at most `DIRSIZ` bytes.** No name is in two slots; `dirlookup()` is the
map; `dirlink()` fails just when the name is there or the entry cannot be written, and otherwise adds the entry to the
first free slot; clearing the entry that `dirlookup()` finds removes the name. All other names keep their entries. -/
theorem directory_map (h : Made sb i dp s) :
    Distinct ((sb.view s.disk).dirents i) ∧
    (∀ name : List UInt8, 0 ∉ name → Runs (fun e => e = .noInodes ∧ ∀ ip, (s.itable ip).ref ≠
      0) (dirlookup sb dp name) s fun r t =>
      match lookup ((sb.view s.disk).dirents i) (name.take dirsiz) with
      | none => r = none ∧ t = s
      | some (inum, k) => ∃ ip, r = some (ip, direntSize * k) ∧ (t.itable ip).inum = inum) ∧
    (∀ (name : List UInt8) (inum : Nat), 0 ∉ name → 0 < inum → inum < 65536 →
      Runs (dirPanics s) (dirlink sb dp name inum) s fun r t => Made sb i dp t ∧
        (r = false ↔ lookup ((sb.view s.disk).dirents i) (name.take dirsiz) ≠ none ∨
          Runs (fun _ => False)
            (writei sb dp (dirent inum name) (direntSize * free ((sb.view s.disk).dirents i)) direntSize) s
            fun q _ => q ≠ some direntSize) ∧
        (r = false → (sb.view t.disk).dirents i = (sb.view s.disk).dirents i ∧
          (lookup ((sb.view s.disk).dirents i) (name.take dirsiz) = none →
            free ((sb.view s.disk).dirents i) = ((sb.view s.disk).dirents i).length ∧
            (maxfile * bsize < direntSize * ((sb.view s.disk).dirents i).length + direntSize ∨ t.DiskFull sb))) ∧
        (r = true → (sb.view t.disk).dirents i =
            put ((sb.view s.disk).dirents i) (free ((sb.view s.disk).dirents i)) (some (name.take dirsiz, inum)) ∧
          lookup ((sb.view t.disk).dirents i) (name.take dirsiz) = some (inum, free ((sb.view s.disk).dirents i)) ∧
          ∀ other, other ≠ name.take dirsiz →
            lookup ((sb.view t.disk).dirents i) other = lookup ((sb.view s.disk).dirents i) other)) ∧
    (∀ (name : List UInt8) (inum k : Nat), 0 ∉ name → lookup ((sb.view s.disk).dirents i) (name.take dirsiz) =
      some (inum, k) →
      Runs (fun e => e = .tooBig ∧ ¬ (s.lh.Nodup ∧ s.lh.length + 13 < logblocks))
        (writei sb dp ⟨fun _ => 0, direntSize⟩ (direntSize * k) direntSize) s fun r t => Made sb i dp t ∧
          r = some direntSize ∧ lookup ((sb.view t.disk).dirents i) (name.take dirsiz) = none ∧
          ∀ other, other ≠ name.take dirsiz →
            lookup ((sb.view t.disk).dirents i) other = lookup ((sb.view s.disk).dirents i) other) := by
  obtain ⟨⟨X, hdir⟩, hdist⟩ := h.table
  refine ⟨hdist, fun name hname => ?_, fun name inum hname hpos hlt => ?_, fun name inum k hname hfound => ?_⟩
  · refine (dirlookup_slots name hdir.toHoldsDir).mono fun r t hr => ?_
    rw [cut_of_not_mem hname] at hr
    cases hl : lookup ((sb.view s.disk).dirents i) (name.take dirsiz) with
    | none =>
      rw [hl] at hr
      exact hr
    | some p =>
      rw [hl] at hr
      obtain ⟨ip, hip, hget⟩ := hr
      exact ⟨ip, hip, hget.inum_eq⟩
  · refine (dirlink_slots name inum hdir).self.mono fun r t ⟨hrun, _, hr⟩ => ?_
    refine ⟨.link h hname hpos hlt hrun, ?_⟩
    rw [cut_of_not_mem hname, slotOf_dirent hname hpos hlt] at hr
    cases hl : lookup ((sb.view s.disk).dirents i) (name.take dirsiz) with
    | some p =>
      rw [hl] at hr
      obtain ⟨rfl, hsame⟩ := hr
      exact ⟨⟨fun _ => .inl (by simp), fun _ => rfl⟩, fun _ => ⟨hsame, fun hc => by cases hc⟩, fun hc => by cases hc⟩
    | none =>
      rw [hl] at hr
      obtain ⟨hwrite, hcase⟩ := hr
      have hiff : r = false ↔ Runs (fun _ => False)
          (writei sb dp (dirent inum name) (direntSize * free ((sb.view s.disk).dirents i)) direntSize) s
          fun q _ => q ≠ some direntSize := by
        constructor
        · rintro rfl
          exact hwrite.mono fun q _ hq => of_decide_eq_false hq.symm
        · intro hno
          obtain ⟨q, hq, hne⟩ := (hwrite.both hno).final
          rw [hq, decide_eq_false hne]
      refine ⟨by rw [hiff]; simp, fun hr => ?_, fun hr => ?_⟩
      · rcases hcase with ⟨htrue, -⟩ | ⟨-, hsame, hwhy⟩
        · rw [hr] at htrue
          cases htrue
        · exact ⟨hsame, fun _ => hwhy⟩
      · rcases hcase with ⟨-, hput⟩ | ⟨hfalse, -⟩
        · rw [hput]
          exact ⟨rfl, (hdist.insert hl inum).2⟩
        · rw [hr] at hfalse
          cases hfalse
  · have hk := lookup_lt hfound
    refine (writeDirent_slots _ hdir (Nat.le_refl direntSize) (Nat.le_of_lt hk)).self.mono fun r t ⟨hrun, _, hr⟩ => ?_
    refine ⟨.clear h (by rwa [cut_of_not_mem hname]) hrun, ?_⟩
    rcases hr with ⟨hr, hput⟩ | ⟨-, -, hend, -⟩
    · rw [hput, slotOf_zero]
      exact ⟨hr, (hdist.clear hfound).2⟩
    · omega

/-- The directory `d` of the small disk, which is empty, is locked in a transaction. -/
def emptyDir : FsState :=
  { FsState.mount (smallImage 0) with
    outstanding := 1
    itable := update (FsState.mount (smallImage 0)).itable 0
      ⟨2, 1, true, true, smallSb.dinode (smallImage 0) 2⟩ }

theorem emptyDir_made : Made smallSb 2 0 emptyDir := by
  have hholds : Holds smallSb [] 0 emptyDir :=
    ⟨small_sound.toLaw, by decide, rfl, fun bn hbn => absurd hbn (Nat.not_lt_zero _)⟩
  exact .fresh ⟨⟨hholds, rfl, by decide, by decide, by decide⟩, Nat.le_refl 1⟩ (by decide)

/-- An entry is added to the directory; it is found there, and no other of its name can be added. -/
theorem directory_map_emptyDir : Made smallSb 2 0 emptyDir ∧
    Runs (fun _ => False) (dirlink smallSb 0 [97] 3) emptyDir fun r t => r = true ∧
      lookup ((smallSb.view t.disk).dirents 2) [97] = some (3, 0) ∧
      Runs (fun _ => False) (dirlookup smallSb 0 [97]) t (fun q u => ∃ ip, q = some (ip, 0) ∧ (u.itable ip).inum = 3) ∧
      Runs (fun _ => False) (dirlink smallSb 0 [97] 4) t fun q _ => q = false := by
  have hno : Runs (fun _ => False) (dirlink smallSb 0 [97] 3) emptyDir fun r t => r = true ∧
      Runs (fun _ => False) (dirlookup smallSb 0 [97]) t (fun _ _ => True) ∧
      Runs (fun _ => False) (dirlink smallSb 0 [97] 4) t fun _ _ => True := by decide +kernel
  have hadd := (directory_map emptyDir_made).2.2.1 [97] 3 (by decide) (by decide) (by decide)
  refine ⟨emptyDir_made, ((hno.and hadd).weaken fun _ he => he.1).mono fun r t ht => ?_⟩
  obtain ⟨⟨hr, hfind, hagain⟩, hmade, -, -, htrue⟩ := ht
  have hlookup : lookup ((smallSb.view t.disk).dirents 2) ([97].take dirsiz) = some (3, 0) := (htrue hr).2.1
  obtain ⟨-, hfinds, hadds, -⟩ := directory_map hmade
  have hfound := hfinds [97] (by decide)
  rw [hlookup] at hfound
  refine ⟨hr, hlookup, ((hfind.and hfound).weaken fun _ he => he.1).mono fun _ _ hq => hq.2, ?_⟩
  refine ((hagain.and (hadds [97] 4 (by decide) (by decide) (by decide))).weaken fun _ he => he.1).mono fun q u hq => ?_
  exact hq.2.2.1.mpr (.inl (by rw [hlookup]; exact Option.some_ne_none _))

end

end Xv6.Fs
