import Xv6.Fs.Directory

/-!
# Path resolution

* `components` : the elements of a path, `Skips` : what repeated calls of `skipelem()` return;
* `View.step` : the lookup of one name in an inode; a path is resolved by a fold of it (`namei`), or of all names but
  the last (`nameiparent`): `View.outcome`;
* `Tree` : what is assumed of the file system: names lead to inodes in use that have links;
* `namexLoop_walk`, `path_resolution` : `namex()` is the fold, and gives back all references but that of its result.
-/

namespace Xv6.Fs
open Hoare Slots Bytes Function

/-! ## The elements of a path -/

/-- The maximal runs of characters other than slashes, cut to `DIRSIZ`. -/
def components (path : List UInt8) : List (List UInt8) :=
  ((path.splitOnP fun c => c == slash).filter fun run => !run.isEmpty).map fun run => run.take dirsiz

inductive Skips : List UInt8 → List (List UInt8) → Prop
  | done {path : List UInt8} (h : skipelem path = none) : Skips path []
  | next {path name rest : List UInt8} {names : List (List UInt8)} (h : skipelem path = some (name, rest))
      (hrest : Skips rest names) : Skips path (name :: names)

theorem components_slash (path : List UInt8) : components (slash :: path) = components path := by
  rw [components, components, List.splitOnP_cons_eq_if_modifyHead, if_pos (by decide)]
  rfl

theorem components_dropWhile (path : List UInt8) : components (path.dropWhile (· = slash)) = components path := by
  induction path with
  | nil => rfl
  | cons c path ih =>
    by_cases hc : c = slash
    · subst hc
      rw [List.dropWhile_cons_of_pos (by decide), ih, components_slash]
    · rw [List.dropWhile_cons_of_neg (by simpa using hc)]

/-- A path that starts with a run. -/
theorem components_run {run rest : List UInt8} (hne : run ≠ []) (hrun : ∀ c ∈ run, c ≠ slash)
    (hrest : rest = [] ∨ ∃ q, rest = slash :: q) : components (run ++ rest) = run.take dirsiz :: components rest := by
  have hno : ∀ c ∈ run, (c == slash) = false := fun c hc => by simpa using hrun c hc
  have hkeep : (!run.isEmpty) = true := by
    cases run with
    | nil => exact absurd rfl hne
    | cons c run => rfl
  rcases hrest with rfl | ⟨q, rfl⟩
  · rw [List.append_nil, components, List.splitOnP_eq_singleton hno,
      List.filter_cons_of_pos (p := fun run : List UInt8 => !run.isEmpty) hkeep]
    rfl
  · rw [components_slash, components, List.splitOnP_append_cons_of_forall_mem hno _ (by decide),
      List.filter_cons_of_pos (p := fun run : List UInt8 => !run.isEmpty) hkeep, List.map_cons]
    rfl

theorem dropWhile_ne_cases (l : List UInt8) :
    l.dropWhile (· ≠ slash) = [] ∨ ∃ q, l.dropWhile (· ≠ slash) = slash :: q := by
  induction l with
  | nil => exact .inl rfl
  | cons c l ih =>
    by_cases hc : c = slash
    · refine .inr ⟨l, ?_⟩
      rw [hc, List.dropWhile_cons_of_neg (by simp)]
    · rwa [List.dropWhile_cons_of_pos (by simpa using hc)]

/-- A path that does not start with a slash has an element, if it is not empty. -/
theorem components_ne_nil {c : UInt8} {path : List UInt8} (hc : c ≠ slash) : components (c :: path) ≠ [] := by
  rw [← List.takeWhile_append_dropWhile (p := (· ≠ slash)) (l := c :: path),
    components_run ?_ ?_ (dropWhile_ne_cases _)]
  · exact List.cons_ne_nil _ _
  · rw [List.takeWhile_cons_of_pos (by simpa using hc)]
    exact List.cons_ne_nil _ _
  · intro x hx
    simpa using List.mem_takeWhile_imp hx

/-- `skipelem()` splits off the first element. -/
theorem skipelem_components (path : List UInt8) : match skipelem path with
    | none => components path = []
    | some (name, rest) => components path = name :: components rest ∧ (rest.isEmpty = (components rest).isEmpty) := by
  rw [skipelem]
  cases hp : path.dropWhile (· = slash) with
  | nil =>
    rw [← components_dropWhile, hp]
    rfl
  | cons c p =>
    have hc := dropWhile_slash_head hp
    simp only [reduceCtorEq, if_false]
    refine ⟨?_, ?_⟩
    · rw [← components_dropWhile, hp, components_dropWhile]
      conv_lhs => rw [← List.takeWhile_append_dropWhile (p := (· ≠ slash)) (l := c :: p)]
      refine components_run ?_ (fun x hx => ?_) (dropWhile_ne_cases _)
      · rw [List.takeWhile_cons_of_pos (by simpa using hc)]
        exact List.cons_ne_nil _ _
      · simpa using List.mem_takeWhile_imp hx
    · cases hrest : ((c :: p).dropWhile (· ≠ slash)).dropWhile (· = slash) with
      | nil => rfl
      | cons x rest =>
        cases hcomp : components (x :: rest) with
        | nil => exact absurd hcomp (components_ne_nil (dropWhile_slash_head hrest))
        | cons _ _ => rfl

theorem skips_components (path : List UInt8) : Skips path (components path) := by
  induction hn : path.length using Nat.strong_induction_on generalizing path with
  | _ n ih =>
    have hsplit := skipelem_components path
    cases hskip : skipelem path with
    | none =>
      rw [hskip] at hsplit
      rw [hsplit]
      exact .done hskip
    | some p =>
      obtain ⟨name, rest⟩ := p
      rw [hskip] at hsplit
      rw [hsplit.1]
      exact .next hskip (ih _ (hn ▸ skipelem_length hskip) rest rfl)

/-- An element has at most `DIRSIZ` characters of the path, which goes on behind it. -/
theorem skipelem_sub {path name rest : List UInt8} (h : skipelem path = some (name, rest)) :
    name ⊆ path ∧ rest ⊆ path ∧ name.length ≤ dirsiz := by
  rw [skipelem] at h
  cases hp : path.dropWhile (· = slash) with
  | nil =>
    simp only [hp, if_pos] at h
    cases h
  | cons c p =>
    simp only [hp, reduceCtorEq, if_false] at h
    obtain ⟨rfl, rfl⟩ := Prod.mk.inj (Option.some.inj h)
    have hsub : c :: p ⊆ path := by
      rw [← hp]
      exact (List.dropWhile_sublist _).subset
    refine ⟨?_, ?_, List.length_take_le ..⟩
    · exact fun x hx => hsub (((List.take_sublist _ _).trans (List.takeWhile_sublist _)).subset hx)
    · exact fun x hx => hsub (((List.dropWhile_sublist _).trans (List.dropWhile_sublist _)).subset hx)

theorem cut_skipelem {path name rest : List UInt8} (h0 : 0 ∉ path) (h : skipelem path = some (name, rest)) :
    cut dirsiz name = name := by
  obtain ⟨hname, -, hlen⟩ := skipelem_sub h
  rw [cut_of_not_mem fun hc => h0 (hname hc), List.take_of_length_le hlen]

/-! ## Resolution on the image -/

namespace View
variable (v : View)

/-- An inode that a lookup may go through. -/
def Passable (i : Nat) : Prop := (v.ino i).type = tDir ∧ (v.ino i).nlink ≠ 0

instance (i : Nat) : Decidable (v.Passable i) := inferInstanceAs (Decidable (_ ∧ _))

/-- The lookup of one name. -/
def step (i : Nat) (name : List UInt8) : Option Nat :=
  if v.Passable i then (lookup (v.dirents i) name).map Prod.fst else none

/-- What `namei()` finds from inode `i` on. -/
def namei (i : Nat) (names : List (List UInt8)) : Option Nat := names.foldlM v.step i

/-- What `nameiparent()` finds from inode `i` on. -/
def nameiparent (i : Nat) (names : List (List UInt8)) : Option (Nat × List UInt8) :=
  names.getLast?.bind fun name => (v.namei i names.dropLast).bind fun j => if v.Passable j then some (j, name) else none

/-- The loop of `namex()` on the image. -/
def outcome (parent : Bool) : Nat → List (List UInt8) → Option (Nat × List UInt8)
  | i, [] => if parent then none else some (i, [])
  | i, name :: names =>
    if v.Passable i then
      if parent && names.isEmpty then some (i, name)
      else (lookup (v.dirents i) name).bind fun p => outcome parent p.1 names
    else none

theorem outcome_false (i : Nat) (names : List (List UInt8)) :
    v.outcome false i names = (v.namei i names).map fun j => (j, []) := by
  induction names generalizing i with
  | nil => rfl
  | cons name names ih =>
    rw [outcome, namei, List.foldlM_cons, step]
    by_cases h : v.Passable i
    · rw [if_pos h, if_pos h]
      cases lookup (v.dirents i) name with
      | none => rfl
      | some p => exact ih p.1
    · rw [if_neg h, if_neg h]
      rfl

theorem nameiparent_cons (i : Nat) (name name' : List UInt8) (names : List (List UInt8)) :
    v.nameiparent i (name :: name' :: names) = (v.step i name).bind fun j => v.nameiparent j (name' :: names) := by
  rw [nameiparent, namei, List.dropLast_cons_cons, List.foldlM_cons, List.getLast?_cons_cons]
  cases hstep : v.step i name with
  | none =>
    show ((name' :: names).getLast?.bind fun _ => none) = none
    exact Option.bind_fun_none _
  | some j => rfl

theorem outcome_true (i : Nat) (names : List (List UInt8)) : v.outcome true i names = v.nameiparent i names := by
  induction names generalizing i with
  | nil => rfl
  | cons name names ih =>
    rw [outcome]
    cases names with
    | nil => rfl
    | cons name' names =>
      rw [nameiparent_cons, step]
      by_cases h : v.Passable i
      · rw [if_pos h, if_pos h]
        cases lookup (v.dirents i) name with
        | none => rfl
        | some p => exact ih p.1
      · rw [if_neg h, if_neg h]
        rfl

end View

/-- What is assumed of a file system: directories are whole, and names in directories that have links lead to inodes in
use that have links, like the root. -/
structure Tree (sb : Superblock) (v : View) : Prop where
  root : v.Live sb rootino ∧ (v.ino rootino).nlink ≠ 0
  whole : ∀ i, v.Live sb i → (v.ino i).type = tDir → (v.ino i).size.toNat % direntSize = 0
  names : ∀ i name j k, v.Live sb i → v.Passable i → lookup (v.dirents i) name = some (j, k) →
    v.Live sb j ∧ (v.ino j).nlink ≠ 0

section
variable {sb : Superblock} {w : World} {X : List Nat} {D : Image} {s t : FsState} {ip : Ip} {i : Nat}

/-- The entry is that of inode `i`, which does not go away when a reference beside those of `w` is given back. -/
structure Stays (sb : Superblock) (w : World) (D : Image) (i : Nat) (ip : Ip) (s : FsState) : Prop where
  disk : s.disk = D
  inum : (s.itable ip).inum = i
  live : (sb.view D).Live sb i
  kept : ((sb.view D).ino i).nlink ≠ 0 ∨ 0 < w.hold ip

/-- A call has a reference to the inode. -/
structure At (sb : Superblock) (w : World) (X : List Nat) (D : Image) (i : Nat) (ip : Ip) (s : FsState) : Prop
    extends Stays sb w D i ip s where
  ok : Ok sb (w.take ip) X .clean s

/-- A call has a reference to the inode and its lock. -/
structure Inside (sb : Superblock) (w : World) (X : List Nat) (D : Image) (i : Nat) (ip : Ip) (s : FsState) : Prop
    extends Stays sb w D i ip s where
  ok : Ok sb ((w.take ip).lock ip) X .clean s

theorem At.ref (h : At sb w X D i ip s) : (s.itable ip).ref = w.hold ip + 1 := by
  rw [(h.ok.entry ip).ref, w.hold_take_self]
  push_cast
  rfl

theorem Inside.din (h : Inside sb w X D i ip s) : (s.itable ip).din = (sb.view D).ino i := by
  rw [← (h.ok.ino_locked ((w.take ip).lock_self ip)).1, h.disk, h.inum]

theorem Inside.ref (h : Inside sb w X D i ip s) : (s.itable ip).ref = w.hold ip + 1 := by
  rw [(h.ok.entry ip).ref]
  show (((w.take ip).hold ip : Nat) : Int) = _
  rw [w.hold_take_self]
  push_cast
  rfl

/-- `ilock()` of an inode that nobody has locked. -/
theorem At.ilock {R : FsPanic → Prop} (h : At sb w X D i ip s) (hfree : w.locks ip = false) :
    Runs R (ilock sb ip) s fun _ t => Inside sb w X D i ip t := by
  have hhold : 0 < (w.take ip).hold ip := by
    rw [w.hold_take_self]
    exact Nat.succ_pos _
  have hruns : Runs (fun _ => False) (Fs.ilock sb ip) s fun _ _ => True := by
    have href := h.ref
    have hlocked : (s.itable ip).locked = false := (h.ok.entry ip).locked.trans hfree
    refine .get_bind (.ite (fun hc => absurd hc (by omega)) fun _ => .ite (fun hc => ?_) fun _ => ?_)
    · rw [hlocked] at hc
      exact Bool.noConfusion hc
    · refine .modify_bind (.ite (fun _ => .pure trivial) fun _ => .modify_bind (.ite (fun hc => ?_)
        fun _ => .pure trivial))
      rw [h.disk, h.inum, ← view_ino h.live.1] at hc
      exact h.live.2 hc
  refine ((ilock_spec h.ok hhold).and hruns).weaken (fun _ he => he.2.elim) |>.mono fun _ t ht => ?_
  obtain ⟨⟨-, hok, hdisk, hinum, -⟩, -⟩ := ht
  exact ⟨⟨hdisk.trans h.disk, hinum.trans h.inum, h.live, h.kept⟩, hok⟩

theorem inum_setInode {n : Inode} (hn : n.inum = (s.itable ip).inum) (jp : Ip) :
    ((s.setInode ip n).itable jp).inum = (s.itable jp).inum := by
  by_cases hj : jp = ip
  · rw [hj, itable_setInode, hn]
  · exact congrArg Inode.inum (update_of_ne hj ..)

/-- `iput()` of an inode that stays only counts down. -/
theorem iput_stays (sb : Superblock) {R : FsPanic → Prop} (href : (s.itable ip).ref = w.hold ip + 1)
    (hkept : (s.itable ip).valid = true → (s.itable ip).din.nlink ≠ 0 ∨ 0 < w.hold ip) :
    Runs R (iput sb ip) s fun _ t => t.disk = s.disk ∧ ∀ jp, (t.itable jp).inum = (s.itable jp).inum := by
  refine .get_bind (.ite (fun hc => ?_) fun _ => .of_modify ⟨rfl, fun jp => ?_⟩)
  · obtain ⟨hone, hvalid, hzero⟩ := hc
    rcases hkept hvalid with hne | hpos
    · exact absurd hzero hne
    · omega
  · exact inum_setInode (n := { s.itable ip with ref := (s.itable ip).ref - 1 }) rfl jp

theorem At.iput {R : FsPanic → Prop} (h : At sb w X D i ip s) (hfree : w.locks ip = false) :
    Runs R (Fs.iput sb ip) s fun _ t => Ok sb w X .clean t ∧ t.disk = D := by
  have he := h.ok.entry ip
  have hpos : 0 < (w.take ip).hold ip := by
    rw [w.hold_take_self]
    exact Nat.succ_pos _
  have hput := iput_stays sb (w := w) (R := fun _ => False) h.ref fun hvalid => by
    rw [he.synced hpos hvalid (Pending.clean_ip ip), h.disk, h.inum]
    exact h.kept
  refine ((iput_spec h.ok fun hc => Bool.noConfusion (hfree.symm.trans hc)).and hput).weaken (fun _ he => he.2.elim)
    |>.mono fun _ t ht => ⟨ht.1, ht.2.1.trans h.disk⟩

/-- `iunlockput()`: the reference is given back, and the inode stays. -/
theorem Inside.iunlockput {R : FsPanic → Prop} (h : Inside sb w X D i ip s) (hfree : w.locks ip = false) :
    Runs R (iunlockput sb ip) s fun _ t => Ok sb w X .clean t ∧ t.disk = D ∧ ∀ jp, (t.itable jp).inum =
      (s.itable jp).inum := by
  have href := h.ref
  have hlocked : (s.itable ip).locked = true := (h.ok.entry ip).locked.trans ((w.take ip).lock_self ip)
  have hruns : Runs (fun _ => False) (Fs.iunlockput sb ip) s fun _ t =>
      t.disk = D ∧ ∀ jp, (t.itable jp).inum = (s.itable jp).inum := by
    refine .seq (Q := fun _ t => t = s.setInode ip { s.itable ip with locked := false }) ?_ ?_
    · refine .get_bind (.ite (fun hc => ?_) fun _ => .of_modify rfl)
      rcases hc with hc | hc
      · rw [hlocked] at hc
        exact Bool.noConfusion hc
      · omega
    · rintro _ _ rfl
      have hput := @iput_stays w (s.setInode ip { s.itable ip with locked := false }) ip sb (fun _ => False)
        (by rw [itable_setInode]; exact href) fun _ => by
          rw [itable_setInode]
          show (s.itable ip).din.nlink ≠ 0 ∨ _
          rw [h.din]
          exact h.kept
      exact hput.mono fun _ t ht => ⟨ht.1.trans h.disk, fun jp =>
        (ht.2 jp).trans (inum_setInode (n := { s.itable ip with locked := false }) rfl jp)⟩
  refine ((iunlockput_spec h.ok hfree).and hruns).weaken (fun _ he => he.2.elim) |>.mono fun _ t ht => ht

/-- At most one entry of the inode table is free. -/
def TableFull (w : World) (e : FsPanic) : Prop := e = .noInodes ∧ ∃ ip, ∀ jp, jp ≠ ip → 0 < w.hold jp

/-- The result of a resolution; a reference to it has been taken, and no other. -/
structure Resolved (sb : Superblock) (w : World) (X : List Nat) (D : Image) (o : Option (Nat × List UInt8))
    (r : Option (Ip × List UInt8)) (t : FsState) : Prop where
  disk : t.disk = D
  none : o = none → r = none ∧ Ok sb w X .clean t
  some : ∀ i name, o = some (i, name) → ∃ ip, r = some (ip, name) ∧ (t.itable ip).inum = i ∧
  Ok sb (w.take ip) X .clean t

/-- A result that stays while the call has its reference. -/
structure Found (sb : Superblock) (w : World) (X : List Nat) (D : Image) (o : Option (Nat × List UInt8))
    (r : Option (Ip × List UInt8)) (t : FsState) : Prop extends Resolved sb w X D o r t where
  stays : ∀ ip name, r = Option.some (ip, name) → ∃ i, At sb w X D i ip t

theorem Ok.resolved (h : Ok sb w X .clean t) (hdisk : t.disk = D) : Found sb w X D none none t :=
  ⟨⟨hdisk, fun _ => ⟨rfl, h⟩, fun _ _ hc => absurd hc.symm (Option.some_ne_none _)⟩,
    fun _ _ hc => absurd hc.symm (Option.some_ne_none _)⟩

theorem At.resolved (h : At sb w X D i ip s) (name : List UInt8) :
    Found sb w X D (some (i, name)) (some (ip, name)) s := by
  refine ⟨⟨h.disk, fun hc => absurd hc (Option.some_ne_none _), fun j name' heq => ?_⟩, fun jp name' heq => ?_⟩
  · obtain ⟨rfl, rfl⟩ := Prod.mk.inj (Option.some.inj heq)
    exact ⟨ip, rfl, h.inum, h.ok⟩
  · obtain ⟨rfl, rfl⟩ := Prod.mk.inj (Option.some.inj heq)
    exact ⟨i, h⟩

theorem Inside.fails {R : FsPanic → Prop} (h : Inside sb w X D i ip s) (hfree : w.locks ip = false) :
    Runs R (do Fs.iunlockput sb ip; return none) s fun r t => Found sb w X D none r t :=
  Runs.seq (h.iunlockput hfree) fun _ _ ht => .pure (ht.1.resolved ht.2.1)

theorem Inside.iunlock {R : FsPanic → Prop} (h : Inside sb w X D i ip s) (hfree : w.locks ip = false) :
    Runs R (Fs.iunlock ip) s fun _ t => At sb w X D i ip t := by
  have href := h.ref
  have hlocked : (s.itable ip).locked = true := (h.ok.entry ip).locked.trans ((w.take ip).lock_self ip)
  have hruns : Runs (fun _ => False) (Fs.iunlock ip) s fun _ t => t.disk = D ∧ (t.itable ip).inum = i := by
    refine .get_bind (.ite (fun hc => ?_) fun _ => .of_modify ⟨h.disk, ?_⟩)
    · rcases hc with hc | hc
      · rw [hlocked] at hc
        exact Bool.noConfusion hc
      · omega
    · rw [itable_setInode]
      exact h.inum
  refine ((iunlock_spec h.ok hfree).and hruns).weaken (fun _ he => he.2.elim) |>.mono fun _ t ht => ?_
  exact ⟨⟨ht.2.1, ht.2.2, h.live, h.kept⟩, ht.1⟩

theorem Inside.holdsDir (h : Inside sb w X D i ip s) (htree : Tree sb (sb.view D))
    (hdir : ((sb.view D).ino i).type = tDir) : HoldsDir sb X i ip s := by
  have href := h.ref
  refine ⟨h.ok.holds ((w.take ip).lock_self ip), h.inum, by omega, ?_, ?_⟩
  · rw [h.din, hdir]
  · rw [h.din]
    exact htree.whole i h.live hdir

/-- The next inode, after a lookup. -/
theorem Inside.next {R : FsPanic → Prop} {u : FsState} {j k : Nat} {jp : Ip} {name : List UInt8}
    (h : Inside sb w X D i ip t) (hfree : ∀ ip, w.locks ip = false) (htree : Tree sb (sb.view D))
    (hpass : (sb.view D).Passable i) (hfound : lookup ((sb.view D).dirents i) name = some (j, k)) (hget : Iget j t jp u)
    (hok : Ok sb (((w.take ip).lock ip).take jp) X .clean u) :
    Runs R (Fs.iunlockput sb ip) u fun _ v => At sb w X D j jp v := by
  have hdisk : u.disk = D := by
    rw [hget.rest]
    exact h.disk
  have hinum : (u.itable ip).inum = i := by
    have href := h.ref
    cases hget with
    | found hpos hj =>
        exact (inum_setInode (n := { t.itable jp with ref := (t.itable jp).ref + 1 }) rfl ip).trans h.inum
    | fresh hzero =>
      have hne : ip ≠ jp := by
        rintro rfl
        omega
      exact (congrArg Inode.inum (update_of_ne hne ..)).trans h.inum
  rw [w.take_lock_take] at hok
  have hinside : Inside sb (w.take jp) X D i ip u := ⟨⟨hdisk, hinum, h.live, .inl hpass.2⟩, hok⟩
  obtain ⟨hlive, hlink⟩ := htree.names i name j k h.live hpass hfound
  refine (hinside.iunlockput (hfree ip)).mono fun _ v hv =>
    ⟨⟨hv.2.1, (hv.2.2 jp).trans hget.inum_eq, hlive, .inl hlink⟩, hv.1⟩

/-- **The loop of `namex()`** resolves the path on the image. -/
theorem namexLoop_walk (parent : Bool) (hlocks : ∀ ip, w.locks ip = false) (htree : Tree sb (sb.view D)) (fuel : Nat) :
    ∀ ip path i s, path.length < fuel → 0 ∉ path → At sb w X D i ip s →
    Runs (TableFull w) (namexLoop sb parent fuel ip path) s
      fun r t => Found sb w X D ((sb.view D).outcome parent i (components path)) r t := by
  induction fuel with
  | zero => exact fun ip path i s hlt => absurd hlt (Nat.not_lt_zero _)
  | succ fuel ih =>
    intro ip path i s hlt h0 h
    rw [namexLoop]
    have hcomp := skipelem_components path
    cases hskip : skipelem path with
    | none =>
      rw [hskip] at hcomp
      rw [hcomp, View.outcome]
      refine .ite (fun hp => ?_) fun hp => .pure ?_
      · rw [if_pos hp]
        exact .seq (h.iput (hlocks ip)) fun _ t ht => .pure (ht.1.resolved ht.2)
      · rw [if_neg hp]
        exact h.resolved []
    | some p =>
      obtain ⟨name, rest⟩ := p
      rw [hskip] at hcomp
      obtain ⟨hcons, hempty⟩ := hcomp
      rw [hcons, View.outcome]
      refine .seq (h.ilock (hlocks ip)) fun _ t ht => .get_bind ?_
      rw [ht.din]
      refine .ite (fun htype => ?_) fun htype => .ite (fun hlink => ?_) fun hlink => ?_
      · rw [if_neg fun hc => htype hc.1]
        exact ht.fails (hlocks ip)
      · rw [if_neg fun hc => hc.2 hlink]
        exact ht.fails (hlocks ip)
      · have hpass : (sb.view D).Passable i := ⟨not_not.mp htype, hlink⟩
        rw [if_pos hpass, ← hempty]
        refine .ite (fun hp => ?_) fun hp => ?_
        · rw [if_pos hp]
          exact .seq (ht.iunlock (hlocks ip)) fun _ u hu => .pure (hu.resolved name)
        · rw [if_neg hp]
          have hlook := dirlookup_slots name (ht.holdsDir htree hpass.1)
          rw [ht.disk, cut_skipelem h0 hskip] at hlook
          have hboth := (hlook.and (dirlookup_spec ht.ok ((w.take ip).lock_self ip))).weaken
            fun e he => (⟨he.1.1, ip, fun jp hj => ?_⟩ : TableFull w e)
          · refine .seq hboth fun r u hu => ?_
            cases hfound : lookup ((sb.view D).dirents i) name with
            | none =>
              rw [hfound] at hu
              obtain ⟨⟨rfl, rfl⟩, -⟩ := hu
              exact ht.fails (hlocks ip)
            | some q =>
              obtain ⟨j, k⟩ := q
              rw [hfound] at hu
              obtain ⟨⟨jp, rfl, hget⟩, hok, -⟩ := hu
              refine .seq (ht.next hlocks htree hpass hfound hget hok) fun _ v hv => ?_
              exact ih jp rest j v (Nat.lt_of_lt_of_le (skipelem_length hskip) (Nat.le_of_lt_succ hlt))
                (fun hc => h0 ((skipelem_sub hskip).2.1 hc)) hv
          · have hne := he.1.2 jp
            rw [(ht.ok.entry jp).ref] at hne
            have hhold : ((w.take ip).lock ip).hold jp = w.hold jp := w.hold_take_of_ne hj
            omega

/-- The inode where the resolution begins. -/
def FsState.start (s : FsState) (cwd : Ip) (path : List UInt8) : Nat :=
  if path.headD 0 = slash then rootino else (s.itable cwd).inum

/-- The path is absolute, or the process has a working directory. -/
def Starts (sb : Superblock) (w : World) (s : FsState) (p : Fin nproc) (cwd : Ip) (path : List UInt8) : Prop :=
  path.headD 0 ≠ slash → s.cwd p = some cwd ∧ 0 < w.hold cwd ∧ (sb.view s.disk).Live sb (s.itable cwd).inum

theorem namex_walk {p : Fin nproc} {cwd : Ip} {path : List UInt8} (parent : Bool) (h : Ok sb w X .clean s)
    (hlocks : ∀ ip, w.locks ip = false) (htree : Tree sb (sb.view s.disk)) (hstart : Starts sb w s p cwd path)
    (h0 : 0 ∉ path) :
    Runs (TableFull w) (namex sb p path parent) s fun r t =>
      Found sb w X s.disk ((sb.view s.disk).outcome parent (s.start cwd path) (components path)) r t := by
  have hloop := fun ip i t => namexLoop_walk (X := X) parent hlocks htree (path.length + 1) ip path i t
    (Nat.lt_succ_self _) h0
  rw [FsState.start]
  refine .ite (fun hslash => ?_) fun hslash => .get_bind ?_
  · rw [if_pos hslash]
    have hboth := ((iget_spec h sb.root_lt).and (@iget_runs s rootino)).weaken
      fun e he => (⟨he.2.1, 0, fun jp _ => ?_⟩ : TableFull w e)
    · refine .seq hboth fun ip t ht => ?_
      obtain ⟨⟨hok, hinum, hdisk, -⟩, -⟩ := ht
      exact hloop ip rootino t ⟨⟨hdisk, hinum, htree.root.1, .inl htree.root.2⟩, hok⟩
    · have hne := he.2.2 jp
      rw [(h.entry jp).ref] at hne
      omega
  · obtain ⟨hcwd, hheld, hlive⟩ := hstart hslash
    rw [if_neg hslash, hcwd]
    have hdup : Runs (TableFull w) (idup cwd) s fun ip t => ip = cwd ∧ At sb w X s.disk (s.itable cwd).inum cwd t := by
      have hruns : Runs (fun _ => False) (idup cwd) s fun _ t => t.disk = s.disk ∧ (t.itable cwd).inum =
          (s.itable cwd).inum :=
        Runs.modify_bind (.pure ⟨rfl, by rw [itable_setInode]⟩)
      refine ((idup_spec h hheld).and hruns).weaken (fun _ he => he.2.elim) |>.mono fun ip t ht => ?_
      · obtain ⟨⟨rfl, hok⟩, hdisk, hinum⟩ := ht
        exact ⟨rfl, ⟨⟨hdisk, hinum, hlive, .inr hheld⟩, hok⟩⟩
    refine .seq hdup ?_
    rintro _ t ⟨rfl, ht⟩
    exact hloop _ _ t ht

/-- What a call of `namex()` has done when it returns: no lock is held, and there is one more reference, to the result.
-/
structure Returned (s : FsState) (o : Option (Nat × List UInt8)) (r : Option (Ip × List UInt8)) (t : FsState) :
    Prop where
  disk : t.disk = s.disk
  unlocked : ∀ jp, (t.itable jp).locked = false
  none : o = none → r = none ∧ ∀ jp, (t.itable jp).ref = (s.itable jp).ref
  some : ∀ i name, o = some (i, name) → ∃ ip, r = some (ip, name) ∧ (t.itable ip).inum = i ∧
    ∀ jp, (t.itable jp).ref = (s.itable jp).ref + if jp = ip then 1 else 0

theorem Resolved.returned {o : Option (Nat × List UInt8)} {r : Option (Ip × List UInt8)} (h : Ok sb w X .clean s)
    (hlocks : ∀ ip, w.locks ip = false) (hr : Resolved sb w X s.disk o r t) : Returned s o r t := by
  refine ⟨hr.disk, fun jp => ?_, fun ho => ?_, fun i name ho => ?_⟩
  · cases o with
    | none => exact (((hr.none rfl).2.entry jp).locked).trans (hlocks jp)
    | some q =>
      obtain ⟨ip, -, -, hok⟩ := hr.some q.1 q.2 rfl
      exact ((hok.entry jp).locked).trans (hlocks jp)
  · obtain ⟨hnone, hok⟩ := hr.none ho
    exact ⟨hnone, fun jp => (hok.entry jp).ref.trans (h.entry jp).ref.symm⟩
  · obtain ⟨ip, hsome, hinum, hok⟩ := hr.some i name ho
    refine ⟨ip, hsome, hinum, fun jp => ?_⟩
    rw [(hok.entry jp).ref, (h.entry jp).ref, w.hold_take ip jp]
    by_cases hj : jp = ip
    · simp [hj]
    · simp [hj, Ne.symm hj]

/-- **Path resolution.** The elements of a path are its maximal runs without slashes, cut to `DIRSIZ`. `namei()` is the
fold of the lookups over them; `nameiparent()` stops one element earlier, at a directory that has links, and gives the
last element. All references but that of the result are given back. Only `iget()` may panic, if all entries of the inode
table but one are taken. -/
theorem path_resolution {p : Fin nproc} {cwd : Ip} {path : List UInt8} (h : Ok sb w X .clean s)
    (hlocks : ∀ ip, w.locks ip = false) (htree : Tree sb (sb.view s.disk)) (hstart : Starts sb w s p cwd path)
    (h0 : 0 ∉ path) :
    Skips path (components path) ∧
    Runs (TableFull w) (namex sb p path false) s
      (Returned s (((sb.view s.disk).namei (s.start cwd path) (components path)).map fun i => (i, []))) ∧
    Runs (TableFull w) (namex sb p path true) s
      (Returned s ((sb.view s.disk).nameiparent (s.start cwd path) (components path))) := by
  refine ⟨skips_components path, ?_, ?_⟩
  · rw [← View.outcome_false]
    exact (namex_walk false h hlocks htree hstart h0).mono fun _ _ hr => hr.returned h hlocks
  · rw [← View.outcome_true]
    exact (namex_walk true h hlocks htree hstart h0).mono fun _ _ hr => hr.returned h hlocks

theorem small_tree : Tree smallSb (smallSb.view (smallImage 0)) := by
  have hlive : ∀ i < 16, ((smallSb.view (smallImage 0)).ino i).type ≠ 0 → i = 1 ∨ i = 2 := by decide
  refine ⟨by decide, fun i hi _ => ?_, fun i name j k hi _ hfound => ?_⟩
  · rcases hlive i hi.1 hi.2 with rfl | rfl <;> decide
  · rcases hlive i hi.1 hi.2 with rfl | rfl
    · have hdir : (smallSb.view (smallImage 0)).dirents 1 = [some ([100], 2)] := by decide
      rw [hdir] at hfound
      have hmem := List.mem_singleton.mp (List.mem_of_getElem? (lookup_some hfound))
      obtain rfl : j = 2 := (Prod.mk.inj (Option.some.inj hmem)).2
      decide
    · have hdir : (smallSb.view (smallImage 0)).dirents 2 = [] := by decide
      rw [hdir] at hfound
      cases hfound

/-- The path `/d` on the small disk. -/
theorem path_resolution_small : ∃ w, Ok smallSb w [] .clean (.mount (smallImage 0)) ∧
    Runs (TableFull w) (namex smallSb 0 [slash, 100] false) (.mount (smallImage 0))
      (Returned (.mount (smallImage 0)) (some (2, []))) := by
  obtain ⟨base, hok⟩ := (idle_mount small_sound).quiet.ok
  have hnames : components [slash, 100] = [[100]] := by decide
  have hfold : (smallSb.view (smallImage 0)).namei rootino [[100]] = some 2 := by decide
  have hstarts : ∀ w, Starts smallSb w (.mount (smallImage 0)) 0 0 [slash, 100] := fun _ hc => absurd rfl hc
  have hrun := (path_resolution hok (fun _ => rfl) small_tree (hstarts _) (by decide)).2.1
  rw [hnames] at hrun
  have hstart : FsState.start (.mount (smallImage 0)) 0 [slash, 100] = rootino := rfl
  rw [hstart, show (FsState.mount (smallImage 0)).disk = smallImage 0 from rfl, hfold] at hrun
  exact ⟨_, hok, hrun⟩

end

end Xv6.Fs
