import Xv6.Fs.Contents
import Mathlib.Data.List.Nodup

/-!
# The log space of a write

A chunk of `filewrite()` writes at most `MAXOPBLOCKS` blocks to the log, on any image.

* `Logged s L` : the blocks in the log are among `L`;
* `Indirect s ip J` : `J` has the blocks that were logged for the indirect block of `ip`, at most two;
* `filewriteTurn`, `filewrite_fits_log` : one turn of the loop of `filewrite()`, and the bound.
-/

namespace Xv6.Fs
open Hoare Function

/-! ## Blocks in the log -/

structure Logged (s : FsState) (L : List Nat) : Prop where
  nodup : s.lh.Nodup
  sub : s.lh ⊆ L
  outstanding : 1 ≤ s.outstanding

section
variable {sb : Superblock} {R : FsPanic → Prop} {s t : FsState} {ip : Ip} {L L' D J : List Nat} {b : Nat} {src : Src}
  {n : Nat}

theorem Logged.mono (h : Logged s L) (hsub : L ⊆ L') :
    Logged s L' := ⟨h.nodup, fun _ hb => hsub (h.sub hb), h.outstanding⟩

theorem Logged.length_le (h : Logged s L) : s.lh.length ≤ L.length := (h.nodup.subperm h.sub).length_le

theorem Logged.congr (h : Logged s L) (hlh : t.lh = s.lh) (hout : t.outstanding = s.outstanding) : Logged t L :=
  ⟨hlh ▸ h.nodup, hlh ▸ h.sub, hout ▸ h.outstanding⟩

theorem Logged.wrote {img : Image} (h : Logged s L) (hb : b ∈ L) : Logged (s.wrote b img) L := by
  refine ⟨?_, ?_, h.outstanding⟩
  · show (if b ∈ s.lh then s.lh else s.lh ++ [b]).Nodup
    split
    · exact h.nodup
    · next hmem => exact h.nodup.append (List.nodup_singleton b) (List.disjoint_singleton.mpr hmem)
  · show (if b ∈ s.lh then s.lh else s.lh ++ [b]) ⊆ L
    split
    · exact h.sub
    · refine List.append_subset.mpr ⟨h.sub, fun c hc => ?_⟩
      rw [List.mem_singleton.mp hc]
      exact hb

/-- `log_write()` does not panic while there is space. -/
theorem modDisk_logged {A : Type} {g : Image → Image} {f : Unit → FsM A} {Q : A → FsState → Prop} (h : Logged s L)
    (hlen : L.length < logblocks) (hf : Runs R (f ⟨⟩) (s.wrote b (g s.disk)) Q) : Runs R (modDisk b g >>= f) s Q := by
  have hspace : ¬ logblocks ≤ s.lh.length := Nat.not_le.mpr (Nat.lt_of_le_of_lt h.length_le hlen)
  have hopen : ¬ s.outstanding < 1 := Nat.not_lt.mpr h.outstanding
  refine .seq (Q := fun _ t => t = s.wrote b (g s.disk)) (.get_bind ?_) fun _ t ht => ?_
  · rw [onlyIf, if_neg hspace, onlyIf, if_neg hopen]
    exact .of_modify rfl
  · subst ht
    exact hf

theorem store_logged {A : Type} {x : Nat → UInt8} {f : Unit → FsM A} {Q : A → FsState → Prop} (h : Logged s L)
    (hlen : L.length < logblocks) (hf : Runs R (f ⟨⟩) (s.wrote b (update s.disk b x)) Q) :
    Runs R (store b x >>= f) s Q :=
  modDisk_logged (g := fun img => update img b x) h hlen hf

theorem balloc_logged (h : Logged s L) (hlen : L.length + 2 < logblocks) :
    Runs R (balloc sb) s fun a t => t.itable = s.itable ∧
      ∃ E : List Nat, E.length ≤ 2 ∧ (a ≠ 0 → a ∈ E ∧ a < 2 ^ 32) ∧ Logged t (E ++ L) := by
  refine .get_bind ?_
  cases hfind : (List.range sb.size).find? fun b => !sb.bit s.disk b with
  | none => exact .pure ⟨rfl, [], Nat.zero_le 2, fun h0 => absurd rfl h0, h⟩
  | some b =>
    have hlt : b < sb.size := List.mem_range.mp (List.mem_of_find?_eq_some hfind)
    have hsize := sb.size_lt
    have h1 : Logged s ([sb.bblock b, b] ++ L) := h.mono (List.subset_append_right _ _)
    have h2 : Logged (s.wrote (sb.bblock b) (sb.setBit s.disk b)) ([sb.bblock b, b] ++ L) :=
      h1.wrote (List.mem_append_left _ List.mem_cons_self)
    refine modDisk_logged h (by omega) (store_logged (x :=
      fun _ => 0) h2 ?_ (.pure ⟨rfl, [sb.bblock b, b], ?_, ?_, ?_⟩))
    · rw [List.length_append, Nat.add_comm]
      exact hlen
    · exact Nat.le_refl 2
    · exact fun _ => ⟨by simp, by omega⟩
    · exact h2.wrote (by simp)

/-! ## The blocks of the inode -/

/-- What has been logged for the indirect block. -/
structure Indirect (s : FsState) (ip : Ip) (J : List Nat) : Prop where
  length : J.length ≤ 2
  mem : J ≠ [] → (s.itable ip).din.addrs 12 ≠ 0 ∧ ((s.itable ip).din.addrs 12).toNat ∈ J

theorem Indirect.congr (h : Indirect s ip J) (hitable : (t.itable ip).din.addrs 12 = (s.itable ip).din.addrs 12) :
    Indirect t ip J := by
  refine ⟨h.length, fun hne => ?_⟩
  rw [hitable]
  exact h.mem hne

theorem addrOrAlloc_logged {k : Fin 13} (h : Logged s L) (hlen : L.length + 2 < logblocks) :
    Runs R (addrOrAlloc sb ip k) s fun a t =>
      (∀ j, j ≠ k → (t.itable ip).din.addrs j = (s.itable ip).din.addrs j) ∧
      (a ≠ 0 → ((t.itable ip).din.addrs k).toNat = a) ∧
      (((s.itable ip).din.addrs k ≠ 0 ∧ Logged t L ∧ t = s ∧ a ≠ 0) ∨
        ((s.itable ip).din.addrs k = 0 ∧ ∃ E : List Nat, E.length ≤ 2 ∧ (a ≠ 0 → a ∈ E) ∧ Logged t (E ++ L))) := by
  refine .get_bind (.ite (fun hz => ?_) fun hz => ?_)
  · refine .seq (balloc_logged h hlen) fun a t ⟨hitable, E, hE, ha, ht⟩ => ?_
    refine .ite (fun h0 => ?_) fun h0 => ?_
    · refine .pure ⟨fun j _ =>
        by rw [hitable], fun hne => absurd rfl hne, .inr ⟨hz, E, hE, fun hne => absurd rfl hne, ht⟩⟩
    · refine .modify_bind (.pure ⟨fun j hj => ?_, fun _ => ?_, .inr ⟨hz, E, hE, fun _ => (ha h0).1, ?_⟩⟩)
      · rw [itable_setInode, hitable]
        exact addrs_setAddr_of_ne hj
      · rw [itable_setInode]
        exact addrs_setAddr_self (ha h0).2
      · exact ht.congr rfl rfl
  · refine .pure ⟨fun _ _ => rfl, fun _ => rfl, .inl ⟨hz, h, rfl, ?_⟩⟩
    exact fun hc => hz (UInt32.toNat_inj.mp hc)

/-- The indirect block, which is charged to `J`. -/
theorem indirect_logged (h : Logged s (D ++ J)) (hind : Indirect s ip J) (hlen : D.length + J.length + 2 < logblocks) :
    Runs R (addrOrAlloc sb ip 12) s fun a t =>
      ∃ J' : List Nat, J'.length ≤ 2 ∧ Logged t (D ++ J') ∧ (a ≠ 0 → a ∈ J' ∧ Indirect t ip J') := by
  refine (addrOrAlloc_logged h (by rwa [List.length_append])).mono fun a t ⟨_, ha, hcase⟩ => ?_
  rcases hcase with ⟨hne, hlog, rfl, h0⟩ | ⟨hz, E, hE, hmem, hlog⟩
  · by_cases hJ : J = []
    · subst hJ
      refine ⟨[a], Nat.le_succ 1, hlog.mono (by simp), fun _ => ⟨List.mem_singleton_self a, Nat.le_succ 1,
      fun _ => ⟨hne, ?_⟩⟩⟩
      rw [ha h0]
      exact List.mem_singleton_self a
    · exact ⟨J, hind.length, hlog, fun _ => ⟨ha h0 ▸ (hind.mem hJ).2, hind⟩⟩
  · have hJ : J = [] := by
      by_contra hJ
      exact (hind.mem hJ).1 hz
    subst hJ
    refine ⟨E, hE, hlog.mono (by simp), fun h0 => ⟨hmem h0, hE, fun _ => ⟨fun hc => h0 ?_, ?_⟩⟩⟩
    · rw [← ha h0, hc]
      rfl
    · rw [ha h0]
      exact hmem h0

/-- A block of the inode: at most two blocks are logged for it, and the indirect block is charged to `J`. -/
theorem bmap_logged {bn : Nat} (h : Logged s (D ++ J)) (hind : Indirect s ip J) (hlen : D.length + 6 < logblocks)
    (hbn : bn < maxfile) :
    Runs R (bmap sb ip bn) s fun a t => ∃ E J' : List Nat, E.length ≤ 2 ∧ J'.length ≤ 2 ∧ Logged t (E ++ D ++ J') ∧
      (a ≠ 0 → a ∈ E ∧ Indirect t ip J') := by
  have hmax : maxfile = ndirect + nindirect := rfl
  have hJ := hind.length
  refine .ite (fun hd => ?_) fun hd => .ite (fun hn => ?_) fun hn => absurd hn (by omega)
  · refine (addrOrAlloc_logged h (by rw [List.length_append]; omega)).mono fun a t ⟨hother, ha, hcase⟩ => ?_
    have hne : (12 : Fin 13) ≠ Fin.ofNat 13 bn := by
      intro hc
      have hval := congrArg Fin.val hc
      rw [Fin.ofNat, ndirect] at *
      simp at hval
      omega
    have hind' : Indirect t ip J := hind.congr (hother 12 hne)
    rcases hcase with ⟨-, hlog, -, -⟩ | ⟨-, E, hE, hmem, hlog⟩
    · refine ⟨[a], J, Nat.le_succ 1, hJ, hlog.mono ?_, fun _ => ⟨List.mem_singleton_self a, hind'⟩⟩
      exact fun x hx => by simp at hx ⊢; tauto
    · refine ⟨E, J, hE, hJ, hlog.mono ?_, fun h0 => ⟨hmem h0, hind'⟩⟩
      rw [List.append_assoc]
      exact fun _ hx => hx
  · refine .seq (indirect_logged h hind (by omega)) fun a t ⟨J', hJ', hlog, ha⟩ => ?_
    refine .ite (fun _ => .pure ⟨[], J', Nat.zero_le 2, hJ', hlog, fun h0 => absurd rfl h0⟩) fun h0 => ?_
    obtain ⟨hmem, hind'⟩ := ha h0
    refine .get_bind (.ite (fun _ => ?_) fun _ => ?_)
    · refine .seq (balloc_logged hlog (by rw [List.length_append]; omega)) fun b u ⟨hitable, E, hE, hb, hlog'⟩ => ?_
      rw [← List.append_assoc] at hlog'
      refine .ite (fun _ => .pure ⟨E, J', hE, hJ', hlog', fun hb0 => absurd rfl hb0⟩) fun hb0 => .get_bind ?_
      refine store_logged hlog' ?_ (.pure ⟨E, J', hE, hJ', hlog'.wrote (List.mem_append_right _ hmem), fun _ =>
      ⟨(hb hb0).1, ?_⟩⟩)
      · rw [List.length_append, List.length_append]
        omega
      · refine hind'.congr ?_
        show (u.itable ip).din.addrs 12 = _
        rw [hitable]
    · refine .pure ⟨[_], J', Nat.le_succ 1, hJ', hlog.mono ?_, fun _ => ⟨List.mem_singleton_self _, hind'⟩⟩
      exact fun x hx => by simp at hx ⊢; tauto

/-! ## The loop of `writei` -/

/-- From the start of a block on: `k` more blocks. -/
theorem writeLoop_logged (fuel : Nat) : ∀ {k off tot : Nat} {s : FsState} {D J : List Nat},
    Logged s (D ++ J) → Indirect s ip J → D.length + 2 * k + 6 < logblocks → n - tot ≤ k * bsize →
    (tot < n → off % bsize = 0) → off + (n - tot) ≤ maxfile * bsize →
    Runs R (writeLoop sb ip src n fuel off tot) s fun _ t =>
      ∃ D' J' : List Nat, D'.length ≤ D.length + 2 * k ∧ J'.length ≤ 2 ∧ Logged t (D' ++ J') := by
  induction fuel with
  | zero =>
    intro k off tot s D J h hind _ _ _ _
    exact .pure ⟨D, J, Nat.le_add_right _ _, hind.length, h⟩
  | succ fuel ih =>
    intro k off tot s D J h hind hlen hk halign hmax
    refine .ite (fun hlt => ?_) fun _ => .pure ⟨D, J, Nat.le_add_right _ _, hind.length, h⟩
    have hb : bsize = 1024 := rfl
    have hal := halign hlt
    obtain ⟨k, rfl⟩ : ∃ k', k = k' + 1 := ⟨k - 1, by
      cases k with
      | zero => omega
      | succ k => rfl⟩
    have hbn : off / bsize < maxfile := by
      rw [Nat.div_lt_iff_lt_mul (by decide)]
      omega
    refine .seq (bmap_logged h hind (by omega) hbn) fun a t ⟨E, J', hE, hJ', hlog, ha⟩ => ?_
    have hE' : (E ++ D).length ≤ D.length + 2 := by
      rw [List.length_append]
      omega
    refine .ite (fun _ => .pure ⟨E ++ D, J', by omega, hJ', hlog⟩) fun h0 => .get_bind ?_
    obtain ⟨hmem, hind'⟩ := ha h0
    have hlog' : ∀ img, Logged (t.wrote a img) (E ++ D ++ J') := fun img =>
      hlog.wrote (List.mem_append_left _ (List.mem_append_left _ hmem))
    refine store_logged hlog (by rw [List.length_append]; omega) (.ite (fun _ => ?_) fun _ => ?_)
    · exact .pure ⟨E ++ D, J', by omega, hJ', hlog' _⟩
    · obtain ⟨m, hm⟩ : ∃ m, m = min (n - tot) (bsize - off % bsize) := ⟨_, rfl⟩
      rw [← hm]
      rw [hal, Nat.sub_zero, hb] at hm
      rw [Nat.succ_mul] at hk
      have hal' : tot + m < n → (off + m) % bsize = 0 := by
        rw [hb] at hal ⊢
        omega
      refine (ih (k := k) (hlog' _) (hind'.congr rfl) (by omega) (by omega) hal' (by omega)).mono
        fun r u ⟨D', J'', hD', hJ'', hlog''⟩ => ⟨D', J'', by omega, hJ'', hlog''⟩

/-! ## One chunk of `filewrite` -/

/-- The address of block `bn` of the inode, 0 if it has none. -/
def FsState.addrOf (s : FsState) (ip : Ip) (bn : Nat) : Nat :=
  if bn < ndirect then ((s.itable ip).din.addrs (Fin.ofNat 13 bn)).toNat
  else if (s.itable ip).din.addrs 12 = 0 then 0
  else (getUint (s.disk ((s.itable ip).din.addrs 12).toNat) (4 * (bn - ndirect))).toNat

/-- The inode has no holes: every block below its size is there. -/
def FsState.NoHoles (s : FsState) (ip : Ip) : Prop :=
  ∀ bn, bn * bsize < (s.itable ip).din.size.toNat → s.addrOf ip bn ≠ 0

theorem bmap_addrOf {bn : Nat} (hbn : bn < maxfile) (h0 : s.addrOf ip bn ≠ 0) :
    Runs R (bmap sb ip bn) s fun a t => a = s.addrOf ip bn ∧ t = s := by
  have hmax : maxfile = ndirect + nindirect := rfl
  rw [FsState.addrOf] at h0 ⊢
  refine .ite (fun hd => ?_) fun hd => .ite (fun _ => ?_) fun hn => absurd hn (by omega)
  · rw [if_pos hd] at h0 ⊢
    refine .get_bind (.ite (fun hz => absurd (by rw [hz]; rfl) h0) fun _ => .pure ⟨rfl, rfl⟩)
  · rw [if_neg hd] at h0 ⊢
    by_cases hz : (s.itable ip).din.addrs 12 = 0
    · rw [if_pos hz] at h0
      exact absurd rfl h0
    · rw [if_neg hz] at h0 ⊢
      refine .seq (Q := fun a t => a = ((s.itable ip).din.addrs 12).toNat ∧ t = s)
        (.get_bind (.ite (fun hc => absurd hc hz) fun _ => .pure ⟨rfl, rfl⟩)) ?_
      rintro _ _ ⟨rfl, rfl⟩
      rw [if_neg (toNat_ne_zero hz)]
      exact .get_bind (.ite (fun hc => absurd (by rw [hc]; rfl) h0) fun _ => .pure ⟨rfl, rfl⟩)

/-- A chunk that starts within a block, which is there. -/
theorem writeLoop_unaligned {off k : Nat} (hlog : Logged s L) (hlen : L.length + 2 * k + 7 < logblocks)
    (hfull : s.NoHoles ip) (hal : off % bsize ≠ 0) (hsize : off ≤ (s.itable ip).din.size.toNat)
    (hroom : off + n ≤ maxfile * bsize) (hn : n ≤ k * bsize) (fuel : Nat) :
    Runs R (writeLoop sb ip src n fuel off 0) s fun _ t =>
      ∃ D J : List Nat, D.length ≤ L.length + 2 * k + 1 ∧ J.length ≤ 2 ∧ Logged t (D ++ J) := by
  have hnone : ∃ D J : List Nat, D.length ≤ L.length + 2 * k + 1 ∧ J.length ≤ 2 ∧ Logged s (D ++ J) :=
    ⟨L, [], by omega, by decide, hlog.mono (List.subset_append_left _ _)⟩
  have hb : bsize = 1024 := rfl
  cases fuel with
  | zero => exact .pure hnone
  | succ fuel =>
    refine .ite (fun hlt => ?_) fun _ => .pure hnone
    have hstart : off / bsize * bsize < off := by
      have hdiv := Nat.div_add_mod' off bsize
      omega
    have hbn : off / bsize < maxfile := by
      rw [Nat.div_lt_iff_lt_mul (by decide)]
      omega
    have h0 := hfull (off / bsize) (by omega)
    refine .seq (bmap_addrOf hbn h0) ?_
    rintro a t ⟨ha, rfl⟩
    rw [← ha] at h0
    have hlog' : ∀ img, Logged (t.wrote a img) ((a :: L) ++ []) := fun img =>
      (hlog.mono (fun _ hx => List.mem_append_left _ (List.mem_cons_of_mem a hx))).wrote
        (List.mem_append_left _ List.mem_cons_self)
    have hcons : (a :: L).length = L.length + 1 := List.length_cons
    rw [if_neg h0]
    refine .get_bind (store_logged hlog (by omega) (.ite (fun _ => ?_) fun _ => ?_))
    · exact .pure ⟨a :: L, [], by omega, by decide, hlog' _⟩
    · obtain ⟨m, hm⟩ : ∃ m, m = min (n - 0) (bsize - off % bsize) := ⟨_, rfl⟩
      rw [← hm, Nat.zero_add]
      rw [hb] at hal hm
      have hal' : m < n → (off + m) % bsize = 0 := by
        rw [hb]
        omega
      refine (writeLoop_logged (k := k) fuel (hlog' _) ⟨Nat.zero_le 2, fun hne => absurd rfl hne⟩
        (by omega) (by omega) hal' (by omega)).mono fun _ u hu => ?_
      obtain ⟨D, J, hD, hJ, hu⟩ := hu
      exact ⟨D, J, by omega, hJ, hu⟩

theorem iupdate_logged (h : Logged s L) (hlen : L.length < logblocks) :
    Runs R (iupdate sb ip) s fun _ t => ∃ b, Logged t (b :: L) := by
  refine .get_bind ?_
  rw [← bind_pure (modDisk _ _)]
  exact modDisk_logged h hlen (.pure ⟨_, (h.mono (List.subset_cons_self _ _)).wrote List.mem_cons_self⟩)

/-- A write of at most `k` blocks: the data blocks, each with a block of the bitmap, one more where the write starts
within a block, the indirect block and its block of the bitmap, and the block of the inode. -/
theorem writei_logged {off : Nat} (k : Nat) (hlog : Logged s L) (hL : L.length + 2 * k + 7 < logblocks)
    (hfull : s.NoHoles ip) (hn : n ≤ k * bsize) :
    Runs R (writei sb ip src off n) s fun _ t => t.lh.Nodup ∧ t.lh.length ≤ L.length + 2 * k + 4 := by
  have hb : bsize = 1024 := rfl
  have hlb : logblocks = 30 := rfl
  have hsize := (s.itable ip).din.size.toNat_lt
  have hnone : s.lh.Nodup ∧ s.lh.length ≤ L.length + 2 * k + 4 :=
    ⟨hlog.nodup, hlog.length_le.trans (by omega)⟩
  refine .get_bind (.ite (fun _ => .pure hnone) fun hc => .ite (fun _ => .pure hnone) fun hmax => ?_)
  rw [not_or] at hc
  have hmb : maxfile * bsize < 2 ^ 31 := by decide
  have hn' : n ≤ k * 1024 := hn
  have hroom : off + n ≤ maxfile * bsize := by omega
  have hloop : Runs R (writeLoop sb ip src n n off 0) s fun _ t =>
      ∃ D J : List Nat, D.length ≤ L.length + 2 * k + 1 ∧ J.length ≤ 2 ∧ Logged t (D ++ J) := by
    have hind : Indirect s ip [] := ⟨Nat.zero_le 2, fun hne => absurd rfl hne⟩
    by_cases hal : off % bsize = 0
    · refine (writeLoop_logged (k := k) (D := L) n (hlog.mono (List.subset_append_left _ _)) hind (by omega) (by omega)
        (fun _ => hal) (by omega)).mono fun _ t ht => ?_
      obtain ⟨D, J, hD, hJ, ht⟩ := ht
      exact ⟨D, J, by omega, hJ, ht⟩
    · exact writeLoop_unaligned hlog hL hfull hal (Nat.le_of_not_lt hc.1) hroom hn n
  refine .seq hloop fun r t ⟨D, J, hD, hJ, ht⟩ => .modify_bind ?_
  have hlen : (D ++ J).length ≤ L.length + 2 * k + 3 := by
    rw [List.length_append]
    omega
  refine .seq (iupdate_logged (ht.congr rfl rfl) (by omega)) fun _ u ⟨b, hu⟩ => .pure ⟨hu.nodup, hu.length_le.trans ?_⟩
  rw [List.length_cons]
  omega

end

section
variable (sb : Superblock)

/-- The state after `ilock()`. -/
def FsState.loaded (s : FsState) (ip : Ip) : FsState :=
  s.setInode ip { s.itable ip with
    locked := true, valid := true
    din := if (s.itable ip).valid then (s.itable ip).din else sb.dinode s.disk (s.itable ip).inum }

/-- A turn of the loop of `filewrite()`, up to `writei()`; the rest of it, up to `end_op()`, writes nothing to the log.
-/
def filewriteTurn (f : Fin nfile) (src : Src) (n i : Nat) : FsM (Option Nat) := do
  let s ← get
  beginOp
  ilock sb (s.ftable f).ip
  writei sb (s.ftable f).ip (src.drop i) (s.ftable f).off (min (n - i) maxWrite)

theorem get_get {A : Type} (g : FsState → FsState → FsM A) :
    (do let s ← get; let t ← get; g s t) = (do let s ← get; g s s) := rfl

/-- The loop makes such turns. -/
theorem filewriteLoop_turn (f : Fin nfile) (src : Src) (n fuel i : Nat) : filewriteLoop sb f src n (fuel + 1) i =
    (if i < n then do
      let s ← get
      let r ← filewriteTurn sb f src n i
      modFile f fun x => { x with off := x.off + r.getD 0 }
      iunlock (s.ftable f).ip
      endOp
      if r = some (min (n - i) maxWrite) then filewriteLoop sb f src n fuel (i + min (n - i) maxWrite)
      else return i
    else return i) := by
  rw [filewriteLoop]
  simp only [filewriteTurn, bind_assoc]
  refine if_congr Iff.rfl ?_ rfl
  rw [get_get]

end

section
variable {sb : Superblock} {s : FsState} {ip : Ip}

/-- The panics of `ilock()`. -/
def ilockPanics (e : FsPanic) : Prop := e = .ilock ∨ e = .stuck ∨ e = .noType

theorem ilock_loaded : Runs ilockPanics (ilock sb ip) s fun _ t => t = s.loaded sb ip := by
  refine .get_bind (.ite (fun _ => .throw (.inl rfl)) fun _ =>
    Runs.ite (fun _ => .throw (.inr (.inl rfl))) fun _ => .modify_bind (.ite (fun hv => ?_) fun hv => ?_))
  · refine .pure ?_
    rw [FsState.loaded, if_pos hv]
    dsimp only
    rw [hv]
  · refine .modify_bind (.ite (fun _ => .throw (.inr (.inr rfl))) fun _ => .pure ?_)
    rw [FsState.loaded, if_neg hv, setInode_setInode, itable_setInode]

/-- **A chunk fits its reservation.** On any image, a turn of the loop of `filewrite()` on an inode without holes logs
at most `MAXOPBLOCKS` blocks, whatever it runs out of; no panic of `log_write()` or `bmap()` is possible. -/
theorem filewrite_fits_log {f : Fin nfile} {src : Src} {n i : Nat} (hlh : s.lh = [])
    (hfull : (s.loaded sb (s.ftable f).ip).NoHoles (s.ftable f).ip) :
    Runs ilockPanics (filewriteTurn sb f src n i) s fun _ t => t.lh.Nodup ∧ t.lh.length ≤ maxopblocks := by
  refine .get_bind (.modify_bind (.seq ilock_loaded fun _ t ht => ?_))
  subst ht
  have hlog : Logged ({ s with outstanding := s.outstanding + 1 }.loaded sb (s.ftable f).ip) [] := by
    refine ⟨?_, ?_, Nat.le_add_left 1 _⟩
    · show s.lh.Nodup
      rw [hlh]
      exact List.nodup_nil
    · show s.lh ⊆ []
      rw [hlh]
      exact List.nil_subset _
  exact writei_logged 3 hlog (by decide) hfull (Nat.min_le_right _ _)

/-- A file system of 100 blocks. -/
def hundredSb : Superblock where
  size := 100
  nblocks := 90
  ninodes := 16
  inodestart := 2
  bmapstart := 3
  root_lt := root_lt_sixteen
  size_lt := by decide
  inodes_lt := sixteen_inodes_lt
  bmap_lt := by decide

/-- A file of 1500 bytes in blocks 50 and 51 is open at its end; all other blocks are free. -/
def shortFile : FsState :=
  { FsState.mount fun _ _ => 0 with
    itable := fun _ => ⟨2, 1, false, true, { Dinode.zero with
      type := 2, nlink := 1, size := 1500, addrs := fun k => if k = 0 then 50 else if k = 1 then 51 else 0 }⟩
    ftable := fun _ => ⟨.inode, 1, true, true, 0, 1500, 0⟩ }

theorem filewrite_fits_log_shortFile : Runs ilockPanics (filewriteTurn hundredSb 0 ⟨fun _ => 7, 5000⟩ 5000 0) shortFile
    fun _ t => t.lh.Nodup ∧ t.lh.length ≤ maxopblocks := by
  refine filewrite_fits_log rfl fun bn hbn => ?_
  change bn * 1024 < 1500 at hbn
  have hcase : bn = 0 ∨ bn = 1 := by omega
  rcases hcase with rfl | rfl <;> decide

end

end Xv6.Fs
