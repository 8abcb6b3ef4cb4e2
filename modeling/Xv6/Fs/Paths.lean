import Mathlib.Data.List.GetD
import Xv6.Fs.Contents

/-!
# Directories and paths

`dirlookup()`, `dirlink()` and `namex()` keep what the calls keep. A lookup leaves the directory as it is, and an entry
names an inode that exists.

* `Held w r t` : the call has a reference to the inode that a lookup returned, if any.
-/

namespace Xv6.Fs
open Hoare Bytes

/-- The state after a lookup: with one more reference, to the inode that it found. -/
def Held {A : Type} (sb : Superblock) (w : World) (X : List Nat) (r : Option (Ip × A)) (t : FsState) : Prop :=
  match r with
  | none => Ok sb w X .clean t
  | some (ip, _) => Ok sb (w.take ip) X .clean t

section
variable {sb : Superblock} {w : World} {X : List Nat} {s : FsState} {ip dp : Ip} {name : List UInt8}

/-! ## Directories -/

/-- The entry that is read names an inode that exists. -/
theorem readDirent_spec {e : FsPanic} {off : Nat} (h : Ok sb w X .clean s) (hl : w.locks dp = true)
    (he : e ≠ .freeingFree) (htype : (s.itable dp).din.type = tDir) (hoff : off % direntSize = 0) :
    Safe (readDirent sb e dp off) s fun de t => t = s ∧ direntInum de < sb.ninodes := by
  obtain ⟨hino, hlive⟩ := h.ino_locked hl
  refine .seq (readi_spec h hl (by decide)) fun r t ⟨ht, hr⟩ => ?_
  subst ht
  cases r with
  | none => exact .throw he
  | some de =>
    obtain ⟨-, -, hin, hbytes⟩ := hr de rfl
    refine .ite (fun hlen => .pure ⟨rfl, ?_⟩) fun _ => .throw he
    rw [hlen] at hin hbytes
    have hsize := hin (by decide)
    have hk : direntSize * (off / direntSize) = off := by
      have := Nat.div_add_mod off direntSize
      omega
    have hentry := h.sound.dirs _ hlive (by
      show ((sb.view t.disk).ino _).type = _
      rw [hino, htype]) (off / direntSize) (by
      show _ ≤ ((sb.view t.disk).ino _).size.toNat
      rw [hino, hk]
      exact hsize)
    have hget : ∀ o < 2, de.getD o 0 = (sb.view t.disk).blk ((sb.view t.disk).at (t.itable dp).inum
        (place (off / bsize))) (off % bsize + o) := fun o ho => by
      have hroom := entry_room hoff
      have hd : direntSize = 16 := rfl
      have ho16 : o < direntSize := by omega
      rw [hbytes, List.getD_eq_getElem _ _ (by rw [List.length_map, List.length_range]; exact ho16), List.getElem_map,
        List.getElem_range, byteAt_add (by omega)]
    rw [View.entry, hk] at hentry
    rwa [direntInum, le_congr hget]

theorem dirlookupLoop_spec (h : Ok sb w X .clean s) (hl : w.locks dp = true) (htype : (s.itable dp).din.type = tDir)
    (fuel : Nat) : ∀ off, off % direntSize = 0 →
    Safe (dirlookupLoop sb dp name fuel off) s fun r t => match r with
      | none => t = s
      | some (ip, off) => Ok sb (w.take ip) X .clean t ∧ off % direntSize = 0 := by
  induction fuel with
  | zero => exact fun off _ => .pure rfl
  | succ fuel ih =>
    intro off hoff
    have hnext : (off + direntSize) % direntSize = 0 := by rw [Nat.add_mod_right, hoff]
    refine .get_bind (.ite (fun _ => ?_) fun _ => .pure rfl)
    refine .seq (readDirent_spec h hl (by decide) htype hoff) ?_
    rintro de _ ⟨rfl, hinum⟩
    refine .ite (fun _ => ih _ hnext) fun _ => .ite (fun _ => ?_) fun _ => ih _ hnext
    exact .seq (iget_spec h hinum) fun ip t ht => .pure ⟨ht.1, hoff⟩

theorem dirlookup_spec (h : Ok sb w X .clean s) (hl : w.locks dp = true) :
    Safe (dirlookup sb dp name) s fun r t => match r with
      | none => t = s ∧ (s.itable dp).din.type = tDir
      | some (ip, off) => Ok sb (w.take ip) X .clean t ∧ off % direntSize = 0 := by
  refine .get_bind (panic_spec (by decide) fun hc => ?_)
  have htype := not_not.mp hc
  refine (dirlookupLoop_spec h hl htype _ 0 rfl).mono fun r t hr => ?_
  cases r with
  | none => exact ⟨hr, htype⟩
  | some p => exact hr

theorem emptyEntry_spec (h : Ok sb w X .clean s) (hl : w.locks dp = true) (htype : (s.itable dp).din.type = tDir)
    (fuel : Nat) : ∀ off, off % direntSize = 0 →
    Safe (emptyEntry sb dp fuel off) s fun r t => t = s ∧ r % direntSize = 0 := by
  induction fuel with
  | zero => exact fun off hoff => .pure ⟨rfl, hoff⟩
  | succ fuel ih =>
    intro off hoff
    refine .get_bind (.ite (fun _ => ?_) fun _ => .pure ⟨rfl, hoff⟩)
    refine .seq (readDirent_spec h hl (by decide) htype hoff) ?_
    rintro de _ ⟨rfl, -⟩
    exact .ite (fun _ => .pure ⟨rfl, hoff⟩) fun _ => ih _ (by rw [Nat.add_mod_right, hoff])

/-- The entry that `dirlink()` writes. -/
theorem writeOk_dirent {inum off : Nat} (hinum : inum < sb.ninodes) (hoff : off % direntSize = 0) :
    WriteOk sb (dirent inum name) off direntSize := by
  refine ⟨hoff, rfl, Nat.le_refl _, ?_⟩
  have hbytes : ∀ o < 2, (dirent inum name).byte o = byte inum o := fun o ho => if_pos ho
  rw [le_congr hbytes, le_byte]
  exact Nat.lt_of_le_of_lt (Nat.mod_le _ _) hinum

theorem dirlink_spec {inum : Nat} (h : Ok sb w X .clean s) (hl : w.locks dp = true) (hinum : inum < sb.ninodes) :
    Safe (dirlink sb dp name inum) s fun _ t => Ok sb w X .clean t := by
  refine .seq (dirlookup_spec h hl) fun r t ht => ?_
  cases r with
  | some p => exact .seq (iput_spec ht.1 fun hc => ((h.entry p.1).valid hc).1) fun _ u hu => .pure hu
  | none =>
    obtain ⟨rfl, htype⟩ := ht
    refine .get_bind (.seq (emptyEntry_spec h hl htype _ 0 rfl) ?_)
    rintro off _ ⟨rfl, hoff⟩
    exact .seq (writei_spec h hl (by decide) fun _ => writeOk_dirent hinum hoff) fun _ u hu => .pure hu

theorem isdiremptyLoop_spec (h : Ok sb w X .clean s) (hl : w.locks dp = true) (htype : (s.itable dp).din.type = tDir)
    (fuel : Nat) : ∀ off, off % direntSize = 0 → Safe (isdiremptyLoop sb dp fuel off) s fun _ t => t = s := by
  induction fuel with
  | zero => exact fun off _ => .pure rfl
  | succ fuel ih =>
    intro off hoff
    refine .get_bind (.ite (fun _ => ?_) fun _ => .pure rfl)
    refine .seq (readDirent_spec h hl (by decide) htype hoff) ?_
    rintro de _ ⟨rfl, -⟩
    exact .ite (fun _ => .pure rfl) fun _ => ih _ (by rw [Nat.add_mod_right, hoff])

theorem mayUnlink_spec (h : Ok sb w X .clean s) (hl : w.locks ip = true) :
    Safe (mayUnlink sb ip (s.itable ip).din.type) s fun _ t => t = s :=
  Runs.ite (fun htype => .get_bind (isdiremptyLoop_spec h hl htype _ _ rfl)) fun _ => .pure rfl

/-! ## Paths -/

theorem dropWhile_slash_head {l rest : List UInt8} {c : UInt8} (h : l.dropWhile (· = slash) = c :: rest) :
    c ≠ slash := by
  induction l with
  | nil => cases h
  | cons d l ih =>
    by_cases hd : d = slash
    · rw [List.dropWhile_cons_of_pos (by simpa using hd)] at h
      exact ih h
    · rw [List.dropWhile_cons_of_neg (by simpa using hd)] at h
      rw [← (List.cons.inj h).1]
      exact hd

theorem skipelem_length {path rest : List UInt8} (h : skipelem path = some (name, rest)) :
    rest.length < path.length := by
  rw [skipelem] at h
  cases hp : path.dropWhile (· = slash) with
  | nil =>
    simp only [hp, if_pos] at h
    cases h
  | cons c p =>
    simp only [hp, reduceCtorEq, if_false] at h
    obtain ⟨-, hrest⟩ := Prod.mk.inj (Option.some.inj h)
    have hc := dropWhile_slash_head hp
    have hle : (c :: p).length ≤ path.length := by
      rw [← hp]
      exact (List.dropWhile_sublist _).length_le
    have hdrop : ((c :: p).dropWhile (· ≠ slash)).length ≤ p.length := by
      rw [List.dropWhile_cons_of_pos (by simpa using hc)]
      exact (List.dropWhile_sublist _).length_le
    have hlast := (List.dropWhile_sublist (l := (c :: p).dropWhile (· ≠ slash)) (· = slash)).length_le
    rw [hrest] at hlast
    rw [List.length_cons] at hle
    omega

theorem namexLoop_spec {nameiparent : Bool} (hw : ∀ jp, w.locks jp = true → 0 < w.hold jp) (fuel : Nat) :
    ∀ ip path s, path.length < fuel → Ok sb (w.take ip) X .clean s →
    Safe (namexLoop sb nameiparent fuel ip path) s fun r t => Held sb w X r t := by
  induction fuel with
  | zero => exact fun ip path s hlt => absurd hlt (Nat.not_lt_zero _)
  | succ fuel ih =>
    intro ip path s hlt h
    have htake : 0 < (w.take ip).hold ip := by
      rw [w.hold_take_self]
      exact Nat.succ_pos _
    rw [namexLoop]
    cases hskip : skipelem path with
    | none =>
      refine .ite (fun _ => ?_) fun _ => .pure h
      exact .seq (iput_spec h (hw ip)) fun _ t ht => .pure ht
    | some p =>
      obtain ⟨name, rest⟩ := p
      have hrest := skipelem_length hskip
      refine .seq (ilock_spec h htake) fun _ t ⟨hfree, ht, _⟩ => .get_bind ?_
      have hput : ∀ {u}, Ok sb ((w.take ip).lock ip) X .clean u →
          Safe (do iunlockput sb ip; return none) u fun r t => Held (A := List UInt8) sb w X r t := fun hu =>
        Runs.seq (iunlockput_spec hu hfree) fun _ _ hv => .pure hv
      refine .ite (fun _ => hput ht) fun _ => .ite (fun _ => hput ht) fun _ => ?_
      refine .ite (fun _ => .seq (iunlock_spec ht hfree) fun _ u hu => .pure hu) fun _ => ?_
      refine .seq (dirlookup_spec ht ((w.take ip).lock_self ip)) fun r u hu => ?_
      cases r with
      | none =>
        obtain ⟨rfl, -⟩ := hu
        exact hput ht
      | some q =>
        obtain ⟨next, off⟩ := q
        have hnext := hu.1
        rw [w.take_lock_take] at hnext
        exact .seq (iunlockput_spec hnext hfree) fun _ v hv => ih next rest v (by omega) hv

theorem namex_spec {p : Fin nproc} {path : List UInt8} {nameiparent : Bool} (h : Ok sb w X .clean s)
    (hw : ∀ jp, w.locks jp = true → 0 < w.hold jp) (hcwd : ∀ jp, w.cwd p = some jp → 0 < w.hold jp) :
    Safe (namex sb p path nameiparent) s fun r t => Held sb w X r t := by
  refine .ite (fun _ => ?_) fun _ => .get_bind ?_
  · exact .seq (iget_spec h sb.root_lt) fun ip t ht => namexLoop_spec hw _ ip path t (Nat.lt_succ_self _) ht.1
  · cases hc : s.cwd p with
    | none => exact .throw (by decide)
    | some cwd =>
      refine .seq (idup_spec h (hcwd cwd (by rw [← h.cwd, hc]))) ?_
      rintro _ t ⟨rfl, ht⟩
      exact namexLoop_spec hw _ _ path t (Nat.lt_succ_self _) ht

end

end Xv6.Fs
