import Xv6.Vm.Access

/-!
# `copyin()` and `copyout()`

* `written a k src` : the bytes that `k` bytes of `src` leave at the address `a`;
* `Allowed deny t root va` : the page of `va` is mapped, and `deny` does not object;
* `copyinLoop_spec`, `copyoutLoop_spec` : what the loops do, page by page;
* `copyin_copyout_exact` : they move exactly the requested bytes, or fail because of a page.
-/

namespace Xv6.Vm
open Radix Alloc Hoare Function

section
variable {P : Type} {s t u : Phys} {root f r : Frame} {ext : P → Option Frame}
  {a va va' psz w : BitVec 64} {n k i j len : Nat} {src : Nat → UInt8} {deny : BitVec 64 → Prop} {m : Mem}
  {off done : Nat} {R : VmPanic → Prop}

/-! ## Addresses -/

theorem toNat_sub_pgrounddown (a : BitVec 64) : (a - pgrounddown a).toNat = a.toNat % 4096 := by
  rw [BitVec.toNat_sub_of_le]
  · rw [toNat_pgrounddown]
    omega
  · rw [BitVec.le_def, toNat_pgrounddown]
    omega

theorem chunk_eq (a : BitVec 64) (len : Nat) : chunk a (pgrounddown a) len = min (4096 - a.toNat % 4096) len := by
  have h4096 : (4096#64).toNat = 4096 := rfl
  have hsub := toNat_sub_pgrounddown a
  rw [chunk, BitVec.toNat_sub_of_le, hsub, h4096]
  rw [BitVec.le_def, hsub, h4096]
  omega

/-- Within a page addresses do not wrap around. -/
theorem toNat_within (h : i < 4096 - a.toNat % 4096) : (a + BitVec.ofNat 64 i).toNat = a.toNat + i := by
  have ha := a.isLt
  rw [BitVec.toNat_add, BitVec.toNat_ofNat]
  omega

theorem vpn_within (h : i < 4096 - a.toNat % 4096) : vpn (a + BitVec.ofNat 64 i) = vpn a := by
  rw [vpn, vpn, toNat_within h]
  omega

theorem lt_maxva_iff_vpn : va < maxva ↔ vpn va < 2 ^ 26 := by
  rw [BitVec.lt_def, toNat_maxva, vpn]
  omega

theorem add_page (a : BitVec 64) (j : Nat) :
    a + BitVec.ofNat 64 (4096 - a.toNat % 4096 + j) = pgrounddown a + 4096#64 + BitVec.ofNat 64 j := by
  apply BitVec.eq_of_toNat_eq
  have ha := a.isLt
  simp only [BitVec.toNat_add, BitVec.toNat_ofNat, toNat_pgrounddown]
  omega

/-! ## Access to all bytes of a page -/

def Allowed (deny : BitVec 64 → Prop) (t : Phys) (root : Frame) (va : BitVec 64) : Prop :=
  va < maxva ∧ ∃ w, leaf t.mem root va = some w ∧ ¬ deny w

theorem pgrounddown_eq_of_vpn (h : vpn va' = vpn va) : pgrounddown va' = pgrounddown va := by
  apply BitVec.eq_of_toNat_eq
  rw [vpn, vpn] at h
  rw [toNat_pgrounddown, toNat_pgrounddown, h]

theorem Blocked.same_page (h : Blocked deny s root psz va) (hv : vpn va' = vpn va) : Blocked deny s root psz va' := by
  by_cases hva : va < maxva
  · have hva' : va' < maxva := by
      rw [lt_maxva_iff_vpn] at hva ⊢
      rwa [hv]
    rw [Blocked, leaf_eq_of_vpn hva hva' hv, pgrounddown_eq_of_vpn hv]
    exact h.imp_left fun hge => absurd hva (BitVec.not_lt.mpr hge)
  · refine .inl (BitVec.not_lt.mp ?_)
    rw [lt_maxva_iff_vpn] at hva ⊢
    rwa [hv]

theorem Exhausted.same_page (h : Exhausted t root va) (hva : va < maxva) (hva' : va' < maxva) (hv : vpn va' = vpn va) :
    Exhausted t root va' := by
  obtain ⟨hpath, hpx⟩ := (px_inj hva hva').mpr hv
  have htop : px 2 va' = px 2 va := (List.cons.inj hpath).1
  rw [Exhausted, leaf_eq_of_vpn hva hva' hv, missing, hpath, htop]
  exact h

theorem Allowed.same_page (h : Allowed deny t root va) (hv : vpn va' = vpn va) : Allowed deny t root va' := by
  have hva' : va' < maxva := by
    have hva := h.1
    rw [lt_maxva_iff_vpn] at hva ⊢
    rwa [hv]
  refine ⟨hva', ?_⟩
  rw [leaf_eq_of_vpn h.1 hva' hv]
  exact h.2

/-- Access that was possible was not blocked, and memory was there. -/
theorem Allowed.not_blocked {new : BitVec 64 → Option UInt8} (h : Allowed deny t root va)
    (ha : Accessed n s t root psz ext new) : ¬ (Blocked deny s root psz va ∨ Exhausted t root va) := by
  obtain ⟨hva, w, hw, hallow⟩ := h
  rintro ((hge | ⟨w', hw', hdeny⟩ | ⟨hnone, hsize⟩) | ⟨hnone, -⟩)
  · exact absurd hva (BitVec.not_lt.mpr hge)
  · have heq : w' = w := Option.some.inj ((ha.kept va hva w' hw').symm.trans hw)
    exact hallow (heq ▸ hdeny)
  · exact absurd (ha.fresh va hva w hnone hw).1 (BitVec.not_lt.mpr hsize)
  · exact absurd (hw.symm.trans hnone) (Option.some_ne_none w)

theorem Accessed.allowed {new : BitVec 64 → Option UInt8} (ha : Accessed n s t root psz ext new)
    (h : Allowed deny s root va) : Allowed deny t root va := by
  obtain ⟨hva, w, hw, hallow⟩ := h
  exact ⟨hva, w, ha.kept va hva w hw, hallow⟩

/-! ## Bytes in, bytes out -/

def written (a : BitVec 64) (k : Nat) (src : Nat → UInt8) (va : BitVec 64) : Option UInt8 :=
  if (va - a).toNat < k then some (src (va - a).toNat) else none

theorem written_zero : written a 0 src = fun _ => none := by
  funext va
  rw [written, if_neg (Nat.not_lt_zero _)]

/-- Two pieces, one after the other. -/
theorem written_append (h : k + j < 2 ^ 64) (va : BitVec 64) :
    written a (k + j) src va = (written (a + BitVec.ofNat 64 k) j (fun i => src (k + i)) va).or
      (written a k src va) := by
  have hsub : (va - (a + BitVec.ofNat 64 k)).toNat = ((va - a).toNat + (2 ^ 64 - k)) % 2 ^ 64 := by
    have ha := a.isLt
    simp only [BitVec.toNat_sub, BitVec.toNat_add, BitVec.toNat_ofNat]
    omega
  have hlt := (va - a).isLt
  rw [written, written, written, hsub]
  generalize (va - a).toNat = d at hlt
  by_cases hle : k ≤ d
  · have hd : (d + (2 ^ 64 - k)) % 2 ^ 64 = d - k := by omega
    rw [hd, if_neg (Nat.not_lt.mpr hle), Option.or_none, Nat.add_sub_cancel' hle]
    by_cases hin : d < k + j
    · rw [if_pos hin, if_pos (by omega)]
    · rw [if_neg hin, if_neg (by omega)]
  · have hd : ¬ (d + (2 ^ 64 - k)) % 2 ^ 64 < j := by omega
    rw [if_neg hd, Option.none_or, if_pos (by omega), if_pos (by omega)]

/-- Where the bytes of a piece within a page are. -/
theorem written_within (ha : k ≤ 4096 - a.toNat % 4096) :
    written a k src va = if vpn va = vpn a ∧ a.toNat % 4096 ≤ va.toNat % 4096 ∧ va.toNat % 4096 < a.toNat % 4096 + k
      then some (src (va.toNat % 4096 - a.toNat % 4096)) else none := by
  have hva := va.isLt
  have haa := a.isLt
  rw [written, vpn, vpn]
  by_cases hin : va.toNat / 4096 = a.toNat / 4096 ∧ a.toNat % 4096 ≤ va.toNat % 4096 ∧
  va.toNat % 4096 < a.toNat % 4096 + k
  · have hsub : (va - a).toNat = va.toNat % 4096 - a.toNat % 4096 := by
      rw [BitVec.toNat_sub_of_le (by rw [BitVec.le_def]; omega)]
      omega
    rw [if_pos hin, hsub, if_pos (by omega)]
  · rw [if_neg hin, if_neg]
    rw [BitVec.toNat_sub]
    omega

theorem store_of_ne {g : Frame} (h : g ≠ f) : m.store f off k src g = m g := update_of_ne h ..

theorem store_self :
    m.store f off k src f = fun i => if off ≤ i ∧ i < off + k then src (i - off) else m f i := update_self ..

/-- Bytes of a user page are overwritten. -/
theorem UserTable.store (src : Nat → UInt8) (h : UserTable n s root psz ext) (hva : a < maxva)
    (hw : leaf s.mem root a = some w) (hallow : ¬ NotWritable w) (hk : k ≤ 4096 - a.toNat % 4096) :
    Accessed n s { s with mem := s.mem.store (pteFrame w) (a.toNat % 4096) k src } root psz ext (written a k src) := by
  have huser : ¬ NotUser w := fun hc => hallow (.inl hc)
  have hframe := leafFrames_of_leaf hva (h.owned hva hw huser) hw
  obtain ⟨hspace, hmoved⟩ := h.space.write (x := fun i =>
    if a.toNat % 4096 ≤ i ∧ i < a.toNat % 4096 + k then src (i - a.toNat % 4096) else s.mem (pteFrame w) i) hframe
  rw [← Mem.store] at hspace hmoved
  obtain ⟨t, ht⟩ : ∃ t : Phys, t = { s with mem := s.mem.store (pteFrame w) (a.toNat % 4096) k src } := ⟨_, rfl⟩
  rw [← ht] at hspace hmoved ⊢
  have hmem : t.mem = s.mem.store (pteFrame w) (a.toNat % 4096) k src := by rw [ht]
  have hleaf := hmoved.leaf
  -- the pages of other addresses
  have hother : ∀ {va w'}, va < maxva → leaf s.mem root va = some w' → vpn va ≠ vpn a → pteFrame w' ≠ pteFrame w := by
    intro va w' hva' hw' hne heq
    by_cases hv : vpn va < n
    · have hframe' := leafFrames_of_leaf hva' hv hw'
      rw [heq] at hframe'
      exact hne (h.space.once hframe' hframe)
    · obtain ⟨-, q, hq⟩ := h.kernel.only va hva' (Nat.le_of_not_lt hv) w' hw'
      rw [heq] at hq
      exact h.space.ne_ext hframe q hq
  refine ⟨⟨hspace, ⟨fun va hva' hge hnone => ?_, fun va hva' hge w' hw' => ?_⟩, hmoved.keeps.kend ▸
    h.kend⟩, hmoved.keeps, fun va _ w' hw' => (hleaf va).trans hw', fun va _ w' hnone hw' => ?_, fun va => ?_,
    fun va hva' w' hw' hdeny => ?_⟩
  · exact h.kernel.size va hva' hge ((hleaf va).symm.trans hnone)
  · exact h.kernel.only va hva' hge w' ((hleaf va).symm.trans hw')
  · exact absurd (hnone.symm.trans ((hleaf va).symm.trans hw')) (Option.some_ne_none w').symm
  · by_cases heq : vpn va = vpn a
    · have hva' : va < maxva := by
        rw [lt_maxva_iff_vpn] at hva ⊢
        rwa [heq]
      have hw' : leaf s.mem root va = some w := by rw [leaf_eq_of_vpn hva hva' heq, hw]
      rw [userByte_user hva' ((hleaf va).trans hw') huser, userByte_user hva' hw' huser, written_within hk,
        hmem, store_self]
      dsimp only
      by_cases hin : a.toNat % 4096 ≤ va.toNat % 4096 ∧ va.toNat % 4096 < a.toNat % 4096 + k
      · rw [if_pos hin, if_pos ⟨heq, hin⟩, Option.some_or]
      · rw [if_neg hin, if_neg fun hc => hin hc.2, Option.none_or]
    · rw [written_within hk, if_neg fun hc => heq hc.1, Option.none_or]
      exact userByte_congr (hleaf va) fun hva' w' hw' => by rw [hmem, store_of_ne (hother hva' hw' heq)]
  · rw [hmem, store_of_ne (hother hva' hw' fun heq => ?_)]
    rw [leaf_eq_of_vpn hva hva' heq, hw] at hw'
    exact hallow (Option.some.inj hw' ▸ hdeny)

variable [DecidableEq P]

/-- The page of `a` is looked up, and faulted in if that is possible. -/
theorem touch_page (h : UserTable n s root psz ext) (hsize : psz ≤ maxva ∨ a < maxva) :
    Runs R (touch root psz (pgrounddown a)) s fun pa t => Accessed n s t root psz ext (fun _ => none) ∧
      Elsewhere s t root (vpn a) ∧
      ((pa = 0 ∧ (Blocked NotUser s root psz a ∨ Exhausted t root a)) ∨
        (pa ≠ 0 ∧ a < maxva ∧ ∃ w, leaf t.mem root a = some w ∧ ¬ NotUser w ∧ frameOf pa = pteFrame w)) := by
  by_cases ha : a < maxva
  · have hv := vpn_lt ha
    have hvpn : vpn a = vpn (vaOf (vpn a)) := (vpn_vaOf hv).symm
    rw [pgrounddown_vpn ha]
    refine (touch_spec h hv).mono fun pa t hpost => ?_
    obtain ⟨hacc, helse, hcase⟩ := hpost
    refine ⟨hacc, helse, ?_⟩
    rcases hcase with ⟨hpa, hwhy⟩ | ⟨hne, w, hw, huser, rfl⟩
    · exact .inl ⟨hpa, hwhy.imp (fun hb => hb.same_page hvpn) fun he => he.same_page (vaOf_lt hv) ha hvpn⟩
    · exact .inr ⟨hne, ha, w, (leaf_vaOf ha).symm.trans hw, huser, frameOf_addr _⟩
  · have hge : maxva ≤ pgrounddown a := by
      rw [lt_maxva_iff_vpn, vpn] at ha
      rw [BitVec.le_def, toNat_maxva, toNat_pgrounddown]
      omega
    refine (touch_top hge (BitVec.le_trans (hsize.resolve_right ha) hge)).mono fun pa t hpost => ?_
    obtain ⟨hpa, rfl⟩ := hpost
    exact ⟨.refl h, fun _ _ _ => rfl, .inl ⟨hpa, .inl (.inl (BitVec.not_lt.mp ha))⟩⟩

omit [DecidableEq P] in
/-- After a chunk the loops go on with the next page. -/
theorem add_chunk (h : j < len - chunk a (pgrounddown a) len) :
    pgrounddown a + 4096#64 + BitVec.ofNat 64 j = a + BitVec.ofNat 64 (chunk a (pgrounddown a) len + j) := by
  have hfull : chunk a (pgrounddown a) len = 4096 - a.toNat % 4096 := by
    rw [chunk_eq] at h ⊢
    omega
  rw [hfull, add_page]

omit [DecidableEq P] in
theorem chunk_le (a : BitVec 64) (len : Nat) : chunk a (pgrounddown a) len ≤ len := by
  rw [chunk_eq]
  exact Nat.min_le_right ..

omit [DecidableEq P] in
theorem within_of_lt_chunk (h : i < chunk a (pgrounddown a) len) : i < 4096 - a.toNat % 4096 := by
  rw [chunk_eq] at h
  omega

omit [DecidableEq P] in
/-- The bytes of a chunk are in one page. -/
theorem chunk_byte (psz : BitVec 64) (ha : a < maxva) (hw : leaf t.mem root a = some w) (huser : ¬ NotUser w)
    (hi : i < chunk a (pgrounddown a) len) :
    some (t.mem (pteFrame w) (a.toNat % 4096 + i)) = userByte t root psz (a + BitVec.ofNat 64 i) ∧
      Allowed NotUser t root (a + BitVec.ofNat 64 i) := by
  have hin := within_of_lt_chunk hi
  have hvpn := vpn_within hin
  have hallow : Allowed NotUser t root (a + BitVec.ofNat 64 i) := Allowed.same_page ⟨ha, w, hw, huser⟩ hvpn
  have hoff : (a + BitVec.ofNat 64 i).toNat % 4096 = a.toNat % 4096 + i := by
    rw [toNat_within hin]
    omega
  rw [userByte_user hallow.1 ((leaf_eq_of_vpn ha hallow.1 hvpn).trans hw) huser, hoff]
  exact ⟨rfl, hallow⟩

omit [DecidableEq P] in
theorem fetched_of_lt {dst : Nat → UInt8} (hi : i < k) :
    fetched m f off k done dst (done + i) = m f (off + i) := by
  rw [fetched, if_pos (by omega), Nat.add_sub_cancel_left]

/-- What the loop of `copyin()` does. -/
theorem copyinLoop_spec (hsize : psz ≤ maxva) (fuel : Nat) {dst : Nat → UInt8} (h : UserTable n s root psz ext)
    (hfuel : len ≤ fuel) :
    Runs R (copyinLoop root psz fuel dst a done len) s fun r t => Accessed n s t root psz ext (fun _ => none) ∧
      (∀ k, r.2 k = dst k ∨ ∃ i < len, k = done + i ∧ some (r.2 k) = userByte s root psz (a + BitVec.ofNat 64 i)) ∧
      ((r.1 = 0 ∧ ∀ i < len, some (r.2 (done + i)) = userByte s root psz (a + BitVec.ofNat 64 i) ∧
          Allowed NotUser t root (a + BitVec.ofNat 64 i)) ∨
        (r.1 = -1 ∧ ∃ i < len, Blocked NotUser s root psz (a + BitVec.ofNat 64 i) ∨
          Exhausted t root (a + BitVec.ofNat 64 i))) := by
  induction fuel generalizing s a done len dst with
  | zero =>
    obtain rfl : len = 0 := Nat.le_zero.mp hfuel
    exact .pure ⟨.refl h, fun k => .inl rfl, .inl ⟨rfl, fun i hi => absurd hi (Nat.not_lt_zero i)⟩⟩
  | succ fuel ih =>
    unfold copyinLoop
    refine .ite (fun hpos => ?_) fun hzero => ?_
    · refine (touch_page h (.inl hsize)).seq fun pa t ⟨hacc, _, hcase⟩ => ?_
      rcases hcase with ⟨rfl, hwhy⟩ | ⟨hne, ha, w, hw, huser, hpa⟩
      · rw [if_pos rfl]
        refine .pure ⟨hacc, fun k => .inl rfl, .inr ⟨rfl, 0, hpos, ?_⟩⟩
        rw [BitVec.add_zero]
        exact hwhy
      · rw [if_neg hne, hpa]
        refine .get_bind ?_
        rw [toNat_sub_pgrounddown]
        have hle := chunk_le a len
        have hfirst := fun i (hi : i < chunk a (pgrounddown a) len) => chunk_byte psz ha hw huser hi
        have hbyte : ∀ va, userByte t root psz va = userByte s root psz va :=
        fun va => by rw [hacc.byte, Option.none_or]
        have hpos' : 0 < chunk a (pgrounddown a) len := by
          rw [chunk_eq]
          omega
        refine (ih (a := pgrounddown a + 4096#64) hacc.table (by omega)).mono fun r u ⟨hacc', hdst, hcase⟩ => ?_
        refine ⟨(hacc.trans hacc').congr fun _ => rfl, fun k => ?_, ?_⟩
        · rcases hdst k with hk | ⟨j, hj, rfl, hk⟩
          · rw [hk]
            by_cases hin : done ≤ k ∧ k < done + chunk a (pgrounddown a) len
            · have hbyte' := (hfirst (k - done) (by omega)).1
              rw [hbyte] at hbyte'
              refine .inr ⟨k - done, by omega, by omega, ?_⟩
              rw [fetched, if_pos hin, hbyte']
            · exact .inl (if_neg hin)
          · refine .inr ⟨chunk a (pgrounddown a) len + j, by omega, by omega, ?_⟩
            rw [hk, hbyte, add_chunk hj]
        · rcases hcase with ⟨hr, hall⟩ | ⟨hr, j, hj, hwhy⟩
          · refine .inl ⟨hr, fun i hi => ?_⟩
            by_cases hlt : i < chunk a (pgrounddown a) len
            · obtain ⟨hbyte', hallow⟩ := hfirst i hlt
              have hsame := (hdst (done + i)).resolve_right fun ⟨j, _, hc, _⟩ => by omega
              rw [hsame, fetched_of_lt hlt, hbyte', hbyte]
              exact ⟨rfl, hacc'.allowed hallow⟩
            · have hj : i - chunk a (pgrounddown a) len < len - chunk a (pgrounddown a) len := by omega
              have hlast := hall _ hj
              rw [add_chunk hj, hbyte, Nat.add_assoc, Nat.add_sub_cancel' (Nat.le_of_not_lt hlt)] at hlast
              exact hlast
          · refine .inr ⟨hr, chunk a (pgrounddown a) len + j, by omega, ?_⟩
            rw [add_chunk hj] at hwhy
            exact hwhy.imp_left (hacc.blocked fun w hc => .inl hc)
    · obtain rfl : len = 0 := Nat.eq_zero_of_not_pos hzero
      exact .pure ⟨.refl h, fun k => .inl rfl, .inl ⟨rfl, fun i hi => absurd hi (Nat.not_lt_zero i)⟩⟩

/-- How `copyout()` of `len` bytes ends: `k` of them have been copied. -/
def CopiedOut (n : Nat) (s t : Phys) (root : Frame) (psz : BitVec 64) (ext : P → Option Frame) (src : Nat → UInt8)
    (a : BitVec 64) (len : Nat) (r : Int) : Prop :=
  ∃ k ≤ len, Accessed n s t root psz ext (written a k src) ∧
    ((r = 0 ∧ k = len ∧ ∀ i < len, Allowed NotWritable t root (a + BitVec.ofNat 64 i)) ∨
      (r = -1 ∧ ∃ i < len, Blocked NotWritable s root psz (a + BitVec.ofNat 64 i) ∨
      Exhausted t root (a + BitVec.ofNat 64 i)))

omit [DecidableEq P] in
theorem CopiedOut.nothing (h : UserTable n s root psz ext) : CopiedOut n s s root psz ext src a 0 0 :=
  ⟨0, Nat.le_refl 0, (Accessed.refl h).congr fun va => by rw [written_zero],
    .inl ⟨rfl, rfl, fun i hi => absurd hi (Nat.not_lt_zero i)⟩⟩

omit [DecidableEq P] in
/-- The first page stops it. -/
theorem CopiedOut.stop (hpos : 0 < len) (hacc : Accessed n s t root psz ext fun _ => none)
    (hwhy : Blocked NotWritable s root psz a ∨ Exhausted t root a) : CopiedOut n s t root psz ext src a len (-1) := by
  refine ⟨0, Nat.zero_le len, hacc.congr fun va => by rw [written_zero], .inr ⟨rfl, 0, hpos, ?_⟩⟩
  rw [BitVec.add_zero]
  exact hwhy

omit [DecidableEq P] in
/-- A chunk has been copied, and then the rest. -/
theorem CopiedOut.next {rv : Int} (hlen : len < 2 ^ 64)
    (hfirst : Accessed n s t root psz ext (written a (chunk a (pgrounddown a) len) src))
    (hallow : ∀ i < chunk a (pgrounddown a) len, Allowed NotWritable t root (a + BitVec.ofNat 64 i))
    (hrest : CopiedOut n t u root psz ext (fun i => src (chunk a (pgrounddown a) len + i)) (pgrounddown a + 4096#64)
      (len - chunk a (pgrounddown a) len) rv) : CopiedOut n s u root psz ext src a len rv := by
  have hle := chunk_le a len
  have hnext := fun j (hj : j < len - chunk a (pgrounddown a) len) => add_chunk hj
  obtain ⟨k, hk, hacc, hcase⟩ := hrest
  generalize chunk a (pgrounddown a) len = c at *
  refine ⟨c + k, by omega, (hfirst.trans hacc).congr fun va => ?_, ?_⟩
  · have haddr : written (pgrounddown a + 4096#64) k (fun i => src (c + i)) va =
        written (a + BitVec.ofNat 64 c) k (fun i => src (c + i)) va := by
      by_cases hzero : k = 0
      · rw [hzero, written_zero, written_zero]
      · have hbase := hnext 0 (by omega)
        rw [BitVec.add_zero, Nat.add_zero] at hbase
        rw [hbase]
    rw [written_append (by omega), haddr]
  · rcases hcase with ⟨hr, rfl, hall⟩ | ⟨hr, j, hj, hwhy⟩
    · refine .inl ⟨hr, Nat.add_sub_cancel' hle, fun i hi => ?_⟩
      by_cases hlt : i < c
      · exact hacc.allowed (hallow i hlt)
      · have hj : i - c < len - c := by omega
        have hlast := hall _ hj
        rwa [hnext _ hj, Nat.add_sub_cancel' (Nat.le_of_not_lt hlt)] at hlast
    · refine .inr ⟨hr, c + j, by omega, ?_⟩
      rw [hnext j hj] at hwhy
      exact hwhy.imp_left (hfirst.blocked fun w hc => hc)

theorem copyoutLoop_spec (fuel : Nat) (h : UserTable n s root psz ext) (hfuel : len ≤ fuel) (hlen : len < 2 ^ 64) :
    Runs R (copyoutLoop root psz src fuel a done len) s fun r t =>
      CopiedOut n s t root psz ext (fun i => src (done + i)) a len r := by
  induction fuel generalizing s a done len with
  | zero =>
    obtain rfl : len = 0 := Nat.le_zero.mp hfuel
    exact .pure (.nothing h)
  | succ fuel ih =>
    unfold copyoutLoop
    refine .ite (fun hpos => .ite (fun htop => ?_) fun htop => ?_) fun hzero => ?_
    · refine .pure (.stop hpos (.refl h) (.inl (.inl ?_)))
      rw [BitVec.le_def, toNat_maxva, toNat_pgrounddown] at htop
      rw [BitVec.le_def, toNat_maxva]
      omega
    · have hdown : pgrounddown a < maxva := BitVec.not_le.mp htop
      have hvpn : vpn (pgrounddown a) = vpn a := by
        rw [vpn, vpn, toNat_pgrounddown]
        omega
      have ha : a < maxva := by
        rw [lt_maxva_iff_vpn] at hdown ⊢
        rwa [← hvpn]
      refine (touch_page h (.inr ha)).seq fun pa t hpost => ?_
      obtain ⟨hacc, -, hcase⟩ := hpost
      rcases hcase with ⟨rfl, hwhy⟩ | ⟨hne, -, w, hw, huser, hpa⟩
      · rw [if_pos rfl]
        refine .pure (.stop hpos hacc (hwhy.imp_left ?_))
        exact Or.imp_right (Or.imp_left fun hc => hc.imp fun _ => And.imp_right .inl)
      · rw [if_neg hne, hpa]
        have hw' : leaf t.mem root (pgrounddown a) = some w := by rw [leaf_eq_of_vpn ha hdown hvpn, hw]
        refine lookup_bind hdown (fun hnone => ?_) fun f hf => getPte_bind ?_
        · rw [leaf, hnone, Option.bind_none] at hw'
          cases hw'
        · rw [leaf_of_tables hf] at hw'
          dsimp only
          rw [(valid_eq_some hw').1]
          by_cases hwr : w &&& pteW = 0
          · rw [if_pos hwr]
            exact .pure (.stop hpos hacc (.inl (hacc.blocked (fun _ hc => hc) (.inr (.inl ⟨w, hw, .inr hwr⟩)))))
          · have hallow : ¬ NotWritable w := not_or.mpr ⟨huser, hwr⟩
            have hin : chunk a (pgrounddown a) len ≤ 4096 - a.toNat % 4096 := by
              rw [chunk_eq]
              exact Nat.min_le_left ..
            have hpos' : 0 < chunk a (pgrounddown a) len := by
              rw [chunk_eq]
              omega
            have hstore := hacc.table.store (fun i => src (done + i)) ha hw hallow hin
            rw [if_neg hwr, toNat_sub_pgrounddown]
            refine .modify_bind ((ih hstore.table (by omega) (by omega)).mono fun r u hu => ?_)
            refine CopiedOut.next hlen ((hacc.trans hstore).congr fun va => ?_) (fun i hi => ?_) ?_
            · rw [Option.or_none]
            · exact hstore.allowed (Allowed.same_page ⟨ha, w, hw, hallow⟩ (vpn_within (within_of_lt_chunk hi)))
            · simp only [Nat.add_assoc] at hu
              exact hu
    · obtain rfl : len = 0 := Nat.eq_zero_of_not_pos hzero
      exact .pure (.nothing h)

omit [DecidableEq P] in
theorem written_self (hi : i < k) (hk : k ≤ 2 ^ 64) : written a k src (a + BitVec.ofNat 64 i) = some (src i) := by
  have hsub : (a + BitVec.ofNat 64 i - a).toNat = i := by
    rw [BitVec.add_comm, BitVec.add_sub_cancel, BitVec.toNat_ofNat, Nat.mod_eq_of_lt (by omega)]
  rw [written, hsub, if_pos hi]

/-- **`copyin()` and `copyout()` move exactly the requested bytes.** They fail iff a page that they need is not a user
page (one that may be written), is out of bounds, or cannot be allocated; and they change nothing else. -/
theorem copyin_copyout_exact (h : UserTable n s root psz ext) :
    (∀ (va : BitVec 64) (src : Nat → UInt8) (len : BitVec 64),
      Runs (fun _ => False) (copyout root psz va src len) s fun r t =>
        (∃ k ≤ len.toNat, Accessed n s t root psz ext (written va k src)) ∧
        (r = 0 → (∀ i < len.toNat, userByte t root psz (va + BitVec.ofNat 64 i) = some (src i)) ∧
          ∀ va', len.toNat ≤ (va' - va).toNat → userByte t root psz va' = userByte s root psz va') ∧
        (r = 0 ∨ r = -1) ∧
        (r = -1 ↔ ∃ i < len.toNat,
          Blocked NotWritable s root psz (va + BitVec.ofNat 64 i) ∨ Exhausted t root (va + BitVec.ofNat 64 i))) ∧
    (psz ≤ maxva → ∀ (dst : Nat → UInt8) (va len : BitVec 64),
      Runs (fun _ => False) (copyin root psz dst va len) s fun r t =>
        Accessed n s t root psz ext (fun _ => none) ∧
        (∀ k, r.2 k = dst k ∨ k < len.toNat ∧ some (r.2 k) = userByte s root psz (va + BitVec.ofNat 64 k)) ∧
        (r.1 = 0 → ∀ i < len.toNat, some (r.2 i) = userByte s root psz (va + BitVec.ofNat 64 i)) ∧
        (r.1 = 0 ∨ r.1 = -1) ∧
        (r.1 = -1 ↔ ∃ i < len.toNat,
          Blocked NotUser s root psz (va + BitVec.ofNat 64 i) ∨ Exhausted t root (va + BitVec.ofNat 64 i))) := by
  refine ⟨fun va src len => ?_, fun hsize dst va len => ?_⟩
  · have hlen := len.isLt
    refine (copyoutLoop_spec (R := fun _ => False) len.toNat h (Nat.le_refl _) hlen).mono
      fun r t ⟨k, hk, hacc, hcase⟩ => ?_
    simp only [Nat.zero_add] at hacc
    refine ⟨⟨k, hk, hacc⟩, ?_⟩
    rcases hcase with ⟨rfl, rfl, hall⟩ | ⟨rfl, hwhy⟩
    · refine ⟨fun _ => ⟨fun i hi => ?_, fun va' hout => ?_⟩, .inl rfl, fun hc => absurd hc (by decide),
        fun ⟨i, hi, hwhy⟩ => ?_⟩
      · rw [hacc.byte, written_self hi (Nat.le_of_lt hlen), Option.some_or]
      · rw [hacc.byte, written, if_neg (Nat.not_lt.mpr hout), Option.none_or]
      · exact absurd hwhy ((hall i hi).not_blocked hacc)
    · exact ⟨fun hc => absurd hc (by decide), .inr rfl, fun _ => hwhy, fun _ => rfl⟩
  · refine (copyinLoop_spec (R := fun _ => False) hsize len.toNat h (Nat.le_refl _)).mono
      fun r t ⟨hacc, hdst, hcase⟩ => ?_
    simp only [Nat.zero_add] at hdst hcase
    refine ⟨hacc, fun k => ?_, ?_⟩
    · rcases hdst k with hk | ⟨i, hi, rfl, hbyte⟩
      · exact .inl hk
      · exact .inr ⟨hi, hbyte⟩
    · rcases hcase with ⟨hr, hall⟩ | ⟨hr, hwhy⟩
      · refine ⟨fun _ i hi => (hall i hi).1, .inl hr, fun hc => ?_, fun ⟨i, hi, hwhy⟩ => ?_⟩
        · rw [hr] at hc
          exact absurd hc (by decide)
        · exact absurd hwhy ((hall i hi).2.not_blocked hacc)
      · refine ⟨fun hc => ?_, .inr hr, fun _ => hwhy, fun _ => hr⟩
        rw [hr] at hc
        exact absurd hc (by decide)

omit [DecidableEq P] in
/-- Pages above those of the process are not mapped. -/
theorem kernel_of_none (hsize : psz.toNat ≤ n * 4096) (hnone : ∀ va < maxva, n ≤ vpn va → leaf s.mem root va = none) :
    Kernel n s root psz ext := by
  refine ⟨fun va hva hge _ => ?_, fun va hva hge w hw => ?_⟩
  · rw [BitVec.le_def, toNat_pgrounddown]
    exact hsize.trans (Nat.mul_le_mul_right 4096 hge)
  · rw [hnone va hva hge] at hw
    cases hw

omit [DecidableEq P] in
/-- There are processes of one page, with any contents. -/
theorem exists_userTable (x : Nat → UInt8) : ∃ s, UserTable userPages s 7 4096#64 (others blank 7) ∧
    ∀ i < 4096, userByte s 7 4096#64 (BitVec.ofNat 64 i) = some (x i) ∧ Allowed NotUser s 7 (BitVec.ofNat 64 i) := by
  obtain ⟨s, hs⟩ := exists_page (n := userPages) x (pteR ||| pteU ||| pteW) (by decide) (by decide) (by decide)
  have hnone : ∀ va < maxva, userPages ≤ vpn va → leaf s.mem 7 va = none := by
    intro va hva hge
    have hpos : 0 < userPages := by decide
    rw [hs.leaf va hva, if_neg (by omega), leaf_of_empty (blank_empty 7)]
  have huser : ¬ NotUser (pa2pte (Frame.addr 1) ||| (pteR ||| pteU ||| pteW) ||| pteV) := by
    rw [NotUser, BitVec.or_assoc, pa2pte_or_and (by decide)]
    decide
  refine ⟨s, ⟨hs.space, kernel_of_none (by decide) hnone, by rw [hs.keeps.kend]; decide⟩, fun i hi => ?_⟩
  have hnat : (BitVec.ofNat 64 i).toNat = i := by rw [BitVec.toNat_ofNat, Nat.mod_eq_of_lt (by omega)]
  have hvpn : vpn (BitVec.ofNat 64 i) = 0 := by
    rw [vpn, hnat]
    omega
  have hva : BitVec.ofNat 64 i < maxva := by
    rw [lt_maxva_iff_vpn, hvpn]
    decide
  have hleaf : leaf s.mem 7 (BitVec.ofNat 64 i) =
      some (pa2pte (Frame.addr 1) ||| (pteR ||| pteU ||| pteW) ||| pteV) := by
    rw [hs.leaf _ hva, if_pos hvpn]
  refine ⟨?_, hva, _, hleaf, huser⟩
  rw [userByte_user hva hleaf huser, BitVec.or_assoc, pteFrame_mk (by decide), hs.content, hnat, Nat.mod_eq_of_lt hi]

/-- Two bytes at the end of a page. -/
theorem copyin_copyout_exact_twoBytes : ∃ s, UserTable userPages s 7 4096#64 (others blank 7) ∧
    Runs (fun _ => False) (copyin 7 4096#64 (fun _ => 0) 4094#64 2#64) s fun r _ => r.1 = 0 ∧
      r.2 0 = 9 ∧ r.2 1 = 9 := by
  obtain ⟨s, htable, hpage⟩ := exists_userTable fun _ => 9
  have hpage' : ∀ i < 2, userByte s 7 4096#64 (4094#64 + BitVec.ofNat 64 i) = some 9 ∧
      Allowed NotUser s 7 (4094#64 + BitVec.ofNat 64 i) := by
    intro i hi
    rw [← BitVec.ofNat_add]
    exact hpage (4094 + i) (by omega)
  refine ⟨s, htable, ((copyin_copyout_exact htable).2 (by decide) _ _ _).mono fun r t ⟨hacc, _, hgot, hr, hiff⟩ => ?_⟩
  have hr0 : r.1 = 0 := by
    refine hr.resolve_right fun hc => ?_
    obtain ⟨i, hi, hwhy⟩ := hiff.mp hc
    exact (hacc.allowed (hpage' i hi).2).not_blocked hacc hwhy
  exact ⟨hr0, Option.some.inj ((hgot hr0 0 (by decide)).trans (hpage' 0 (by decide)).1),
    Option.some.inj ((hgot hr0 1 (by decide)).trans (hpage' 1 (by decide)).1)⟩

theorem blank_userTable : UserTable (2 ^ 26) blank 7 psz (others blank 7) :=
  ⟨Fresh.space ⟨blank_empty 7, by decide, blank_inPool (by decide)⟩ blank_heap (Nat.le_refl _),
    ⟨fun va hva hge => absurd (vpn_lt hva) (Nat.not_lt.mpr hge), fun va hva hge =>
    absurd (vpn_lt hva) (Nat.not_lt.mpr hge)⟩,
    by decide⟩

omit [DecidableEq P] in
theorem pgrounddown_maxva : pgrounddown maxva = maxva := by decide

omit [DecidableEq P] in
theorem touch_above_maxva : Runs (fun e => e = .walk) (touch root (maxva + 4096#64) maxva) s fun _ _ => False := by
  have hmapped : Runs (fun e => e = .walk) (ismapped root maxva) s fun _ _ => False := by
    unfold ismapped
    exact walk_panic_bind (BitVec.le_refl maxva) rfl
  have hfault : Runs (fun e => e = .walk) (vmfault root (maxva + 4096#64) maxva) s fun _ _ => False := by
    unfold vmfault
    rw [if_neg (by decide)]
    dsimp only
    rw [pgrounddown_maxva]
    exact hmapped.seq fun _ _ hc => hc.elim
  unfold touch walkaddr
  rw [if_pos (BitVec.le_refl maxva)]
  refine .pure_bind ?_
  rw [if_pos rfl]
  exact hfault

/-- Above `MAXVA`, with a size that reaches there, `copyin()` does not return: `walk()` panics. -/
theorem copyin_panics_above_maxva : UserTable (2 ^ 26) blank 7 (maxva + 4096#64) (others blank 7) ∧
    Runs (fun e => e = .walk) (copyin 7 (maxva + 4096#64) (fun _ => 0) maxva 1#64) blank fun _ _ => False := by
  refine ⟨blank_userTable, ?_⟩
  have hone : (1#64).toNat = 0 + 1 := rfl
  unfold copyin
  rw [hone]
  unfold copyinLoop
  rw [if_pos (by decide), pgrounddown_maxva]
  exact touch_above_maxva.seq fun _ _ hc => hc.elim

end

end Xv6.Vm
