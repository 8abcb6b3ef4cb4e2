import Xv6.Vm.Grow
import Xv6.Vm.Transfer

/-!
# `copyinstr()` and its callers

* `fetchstr`, `argstr` : the callers, on the page table and the size of the calling process;
* `IsString s root psz a k` : the user string at `a` has `k` bytes before its NUL;
* `copyString_spec` : the inner loop copies up to the first NUL;
* `copyinstr_exact` : the string is fetched iff it ends within the buffer and all its bytes can be read.
-/

namespace Xv6.Vm
open Radix Alloc Hoare Function

/-- `strlen()`, with a bound on its loop. -/
def strlen (s : Nat → UInt8) : Nat → Nat → Nat
  | 0, n => n
  | fuel + 1, n => if s n = 0 then n else strlen s fuel (n + 1)

/-- `fetchstr()` for a process of size `sz`; it also returns the buffer. -/
def fetchstr (pagetable : Frame) (sz addr : BitVec 64) (buf : Nat → UInt8) (max : BitVec 32) :
    VmM (Int × (Nat → UInt8)) := do
  let r ← copyinstr pagetable sz buf addr (max.signExtend 64)
  if r.1 < 0 then return (-1, r.2) else return (strlen r.2 (max.signExtend 64).toNat 0, r.2)

/-- `argstr()`, with the argument registers of the trapframe. -/
def argstr (pagetable : Frame) (sz : BitVec 64) (args : Fin 6 → BitVec 64) (n : Fin 6) (buf : Nat → UInt8)
    (max : BitVec 32) :
    VmM (Int × (Nat → UInt8)) :=
  fetchstr pagetable sz (args n) buf max

section
variable {P : Type} {s t u : Phys} {root f : Frame} {ext : P → Option Frame}
  {a psz w : BitVec 64} {n k i j max : Nat} {dst : Nat → UInt8} {done : Nat} {R : VmPanic → Prop}

/-- The first NUL among `n` bytes of a page. -/
theorem copyString_spec {m : Mem} (n off done : Nat) (dst : Nat → UInt8) :
    (∃ j < n, m f (off + j) = 0 ∧ (∀ i < j, m f (off + i) ≠ 0) ∧
      copyString (m f) n off dst done = (true, fetched m f off (j + 1) done dst, done + j)) ∨
    ((∀ i < n, m f (off + i) ≠ 0) ∧ copyString (m f) n off dst done = (false, fetched m f off n done dst,
      done + n)) := by
  induction n generalizing off done dst with
  | zero =>
    refine .inr ⟨fun i hi => absurd hi (Nat.not_lt_zero i), ?_⟩
    rw [copyString, Nat.add_zero]
    congr 2
    funext x
    rw [fetched, if_neg (by omega)]
  | succ n ih =>
    -- one byte, and then the others
    have hsplit : ∀ k, fetched m f (off + 1) k (done + 1) (update dst done (m f off)) =
        fetched m f off (k + 1) done dst := by
      intro k
      funext x
      rw [fetched, fetched]
      by_cases hx : x = done
      · rw [hx, if_neg (by omega), if_pos (by omega), update_self, Nat.sub_self, Nat.add_zero]
      · rw [update_of_ne hx]
        by_cases hin : done ≤ x ∧ x < done + (k + 1)
        · rw [if_pos (by omega), if_pos hin, show off + 1 + (x - (done + 1)) = off + (x - done) by omega]
        · rw [if_neg (by omega), if_neg hin]
    rw [copyString]
    by_cases hzero : m f off = 0
    · rw [if_pos hzero]
      refine .inl ⟨0, Nat.succ_pos n, hzero, fun i hi => absurd hi (Nat.not_lt_zero i), ?_⟩
      have hone := hsplit 0
      rw [hzero] at hone
      rw [← hone, Nat.add_zero]
      congr 2
      funext x
      rw [fetched, if_neg (by omega)]
    · rw [if_neg hzero]
      have hnext : ∀ {i}, (∀ i' < i, m f (off + 1 + i') ≠ 0) → ∀ i' < i + 1, m f (off + i') ≠ 0 := by
        intro i hi i' hi'
        cases i' with
        | zero => exact hzero
        | succ i' =>
          have hne := hi i' (Nat.lt_of_succ_lt_succ hi')
          rwa [Nat.add_assoc, Nat.add_comm 1 i'] at hne
      rcases ih (off + 1) (done + 1) (update dst done (m f off)) with ⟨j, hj, hnul, hbefore, heq⟩ | ⟨hall, heq⟩
      · refine .inl ⟨j + 1, Nat.succ_lt_succ hj, ?_, hnext hbefore, ?_⟩
        · rwa [Nat.add_assoc, Nat.add_comm 1 j] at hnul
        · rw [heq, hsplit, show done + 1 + j = done + (j + 1) by omega]
      · refine .inr ⟨hnext hall, ?_⟩
        rw [heq, hsplit, show done + 1 + n = done + (n + 1) by omega]

/-! ## Strings of a process -/

/-- A byte that can be read, and is not NUL. -/
def NonNul (s : Phys) (root : Frame) (psz va : BitVec 64) : Prop := ∃ b, b ≠ 0 ∧ userByte s root psz va = some b

def IsString (s : Phys) (root : Frame) (psz a : BitVec 64) (k : Nat) : Prop :=
  userByte s root psz (a + BitVec.ofNat 64 k) = some 0 ∧ ∀ i < k, NonNul s root psz (a + BitVec.ofNat 64 i)

/-- The bytes that `copyinstr()` looks at: no NUL comes before them. -/
def Reached (s : Phys) (root : Frame) (psz a : BitVec 64) (max i : Nat) : Prop :=
  i < max ∧ ∀ i' < i, NonNul s root psz (a + BitVec.ofNat 64 i')

/-- The mappings of pages without such a byte are as before. -/
def Untouched (s t : Phys) (root : Frame) (psz a : BitVec 64) (max : Nat) : Prop :=
  ∀ va < maxva, (∀ i, Reached s root psz a max i → vpn va ≠ vpn (a + BitVec.ofNat 64 i)) → leaf t.mem root va =
    leaf s.mem root va

/-- Why a string is not fetched: a byte that cannot be read comes first, or there is no NUL. -/
def NoString (s t : Phys) (root : Frame) (psz a : BitVec 64) (max : Nat) : Prop :=
  (∃ i, Reached s root psz a max i ∧
    (Blocked NotUser s root psz (a + BitVec.ofNat 64 i) ∨ Exhausted t root (a + BitVec.ofNat 64 i))) ∨
  ∀ i < max, NonNul s root psz (a + BitVec.ofNat 64 i)

/-- How `copyinstr()` ends, with the bytes from `dst + done` on. -/
structure CopiedStr (n : Nat) (s t : Phys) (root : Frame) (psz : BitVec 64) (ext : P → Option Frame) (dst : Nat → UInt8)
    (a : BitVec 64) (done max : Nat) (r : Int × (Nat → UInt8)) : Prop where
  accessed : Accessed n s t root psz ext fun _ => none
  dst : ∀ x, r.2 x = dst x ∨ ∃ i < max, x = done + i ∧ some (r.2 x) = userByte s root psz (a + BitVec.ofNat 64 i)
  untouched : Untouched s t root psz a max
  result : (r.1 = 0 ∧ ∃ k < max, IsString s root psz a k ∧
      ∀ i ≤ k, Allowed NotUser t root (a + BitVec.ofNat 64 i) ∧
        some (r.2 (done + i)) = userByte s root psz (a + BitVec.ofNat 64 i)) ∨
    (r.1 = -1 ∧ NoString s t root psz a max)

theorem CopiedStr.nothing (h : UserTable n s root psz ext) : CopiedStr n s s root psz ext dst a done 0 (-1, dst) :=
  ⟨.refl h, fun _ => .inl rfl, fun _ _ _ => rfl, .inr ⟨rfl, .inr fun i hi => absurd hi (Nat.not_lt_zero i)⟩⟩

theorem reached_zero (hpos : 0 < max) : Reached s root psz a max 0 := ⟨hpos, fun i hi => absurd hi (Nat.not_lt_zero i)⟩

/-- One page is the page of the first byte. -/
theorem Untouched.single (hpos : 0 < max) (helse : Elsewhere s t root (vpn a)) : Untouched s t root psz a max := by
  intro va hva hout
  refine helse va hva ?_
  have hne := hout 0 (reached_zero hpos)
  rwa [BitVec.add_zero] at hne

/-- The first page cannot be read. -/
theorem CopiedStr.stop (hpos : 0 < max) (hacc : Accessed n s t root psz ext fun _ => none)
    (helse : Elsewhere s t root (vpn a)) (hwhy : Blocked NotUser s root psz a ∨ Exhausted t root a) :
    CopiedStr n s t root psz ext dst a done max (-1, dst) := by
  refine ⟨hacc, fun _ => .inl rfl, .single hpos helse, .inr ⟨rfl, .inl ⟨0, reached_zero hpos, ?_⟩⟩⟩
  rw [BitVec.add_zero]
  exact hwhy

section
variable {done c : Nat} (hacc : Accessed n s t root psz ext fun _ => none)
  (hbytes : ∀ i < c, some (t.mem f (a.toNat % 4096 + i)) = userByte t root psz (a + BitVec.ofNat 64 i) ∧
    Allowed NotUser t root (a + BitVec.ofNat 64 i))
include hacc hbytes

theorem page_byte (hi : i < c) : some (t.mem f (a.toNat % 4096 + i)) = userByte s root psz (a + BitVec.ofNat 64 i) := by
  rw [(hbytes i hi).1, hacc.byte, Option.none_or]

theorem nonNul_of_page (hi : i < c) (hne : t.mem f (a.toNat % 4096 + i) ≠ 0) :
    NonNul s root psz (a + BitVec.ofNat 64 i) :=
  ⟨_, hne, (page_byte hacc hbytes hi).symm⟩

/-- The string ends in this page. -/
theorem CopiedStr.last (helse : Elsewhere s t root (vpn a)) (hc : c ≤ max) (hj : j < c)
    (hnul : t.mem f (a.toNat % 4096 + j) = 0) (hbefore : ∀ i < j, t.mem f (a.toNat % 4096 + i) ≠ 0) :
    CopiedStr n s t root psz ext dst a done max (0, fetched t.mem f (a.toNat % 4096) (j + 1) done dst) := by
  refine ⟨hacc, fun x => ?_, .single (by omega) helse, .inl ⟨rfl, j, by omega, ⟨?_, fun i hi => ?_⟩, fun i hi => ?_⟩⟩
  · by_cases hin : done ≤ x ∧ x < done + (j + 1)
    · refine .inr ⟨x - done, by omega, by omega, ?_⟩
      dsimp only
      rw [fetched, if_pos hin, page_byte hacc hbytes (by omega)]
    · exact .inl (if_neg hin)
  · rw [← page_byte hacc hbytes hj, hnul]
  · exact nonNul_of_page hacc hbytes (by omega) (hbefore i hi)
  · dsimp only
    rw [fetched_of_lt (Nat.lt_succ_of_le hi), page_byte hacc hbytes (by omega)]
    exact ⟨(hbytes i (by omega)).2, rfl⟩

/-- The string goes on in the next page. -/
theorem CopiedStr.next {r : Int × (Nat → UInt8)} {a' : BitVec 64} (helse : Elsewhere s t root (vpn a)) (hpos : 0 < max)
    (hc : c ≤ max) (hnext : ∀ j < max - c, a' + BitVec.ofNat 64 j = a + BitVec.ofNat 64 (c + j))
    (hall : ∀ i < c, t.mem f (a.toNat % 4096 + i) ≠ 0)
    (h : CopiedStr n t u root psz ext (fetched t.mem f (a.toNat % 4096) c done dst) a' (done + c) (max - c) r) :
    CopiedStr n s u root psz ext dst a done max r := by
  have hbyte : ∀ va, userByte t root psz va = userByte s root psz va := fun va => by rw [hacc.byte, Option.none_or]
  -- every byte is in this page or after it
  have hsplit : ∀ {Q : BitVec 64 → Prop} {l : Nat}, l ≤ max - c → (∀ i < c, Q (a + BitVec.ofNat 64 i)) →
      (∀ j < l, Q (a' + BitVec.ofNat 64 j)) → ∀ i < c + l, Q (a + BitVec.ofNat 64 i) := by
    intro Q l hl hfirst hrest i hi
    by_cases hlt : i < c
    · exact hfirst i hlt
    · have hQ := hrest (i - c) (by omega)
      rwa [hnext _ (by omega), Nat.add_sub_cancel' (Nat.le_of_not_lt hlt)] at hQ
  have hnonNul : ∀ {l}, l ≤ max - c → (∀ j < l, NonNul t root psz (a' + BitVec.ofNat 64 j)) →
      ∀ i < c + l, NonNul s root psz (a + BitVec.ofNat 64 i) := by
    intro l hl hrest
    refine hsplit hl (fun i hi => nonNul_of_page hacc hbytes hi (hall i hi)) fun j hj => ?_
    rw [NonNul, ← hbyte]
    exact hrest j hj
  have hreached : ∀ {j}, Reached t root psz a' (max - c) j → Reached s root psz a max (c + j) :=
    fun ⟨hj, hbefore⟩ => ⟨by omega, hnonNul (Nat.le_of_lt hj) hbefore⟩
  refine ⟨(hacc.trans h.accessed).congr fun _ => rfl, fun x => ?_, fun va hva hout => ?_, ?_⟩
  · rcases h.dst x with hx | ⟨j, hj, rfl, hx⟩
    · rw [hx]
      by_cases hin : done ≤ x ∧ x < done + c
      · refine .inr ⟨x - done, by omega, by omega, ?_⟩
        rw [fetched, if_pos hin, page_byte hacc hbytes (by omega)]
      · exact .inl (if_neg hin)
    · refine .inr ⟨c + j, by omega, by omega, ?_⟩
      rw [hx, hbyte, hnext j hj]
  · have hrest := h.untouched va hva fun j hj => by
      rw [hnext j hj.1]
      exact hout (c + j) (hreached hj)
    have hfirst := hout 0 (reached_zero hpos)
    rw [BitVec.add_zero] at hfirst
    rw [hrest, helse va hva hfirst]
  · rcases h.result with ⟨hr, k, hk, ⟨hnul, hbefore⟩, hgot⟩ | ⟨hr, ⟨i, hi, hwhy⟩ | hnone⟩
    · refine .inl ⟨hr, c + k, by omega, ⟨?_, hnonNul (Nat.le_of_lt hk) hbefore⟩, fun i hi => ?_⟩
      · rw [← hnext k hk, ← hbyte, hnul]
      · by_cases hlt : i < c
        · have hsame := (h.dst (done + i)).resolve_right fun hc => by
            obtain ⟨j, -, hj, -⟩ := hc
            omega
          rw [hsame, fetched_of_lt hlt, page_byte hacc hbytes hlt]
          exact ⟨h.accessed.allowed (hbytes i hlt).2, rfl⟩
        · have hlast := hgot (i - c) (by omega)
          rwa [hnext _ (by omega), hbyte, Nat.add_assoc, Nat.add_sub_cancel' (Nat.le_of_not_lt hlt)] at hlast
    · refine .inr ⟨hr, .inl ⟨c + i, hreached hi, ?_⟩⟩
      rw [hnext i hi.1] at hwhy
      exact hwhy.imp_left (hacc.blocked fun w hc => .inl hc)
    · refine .inr ⟨hr, .inr fun i hi => hnonNul (Nat.le_refl _) hnone i (by omega)⟩

end

variable [DecidableEq P]

omit [DecidableEq P] in
theorem copyinstrLoop_succ (fuel done : Nat) : copyinstrLoop root psz (fuel + 1) dst a done max =
    if 0 < max then touch root psz (pgrounddown a) >>= fun pa0 =>
      if pa0 = 0 then pure (-1, dst)
      else get >>= fun s =>
        if (copyString (s.mem (frameOf pa0)) (chunk a (pgrounddown a) max) (a - pgrounddown a).toNat dst done).1 then
          pure (0,
            (copyString (s.mem (frameOf pa0)) (chunk a (pgrounddown a) max) (a - pgrounddown a).toNat dst done).2.1)
        else copyinstrLoop root psz fuel
          (copyString (s.mem (frameOf pa0)) (chunk a (pgrounddown a) max) (a - pgrounddown a).toNat dst done).2.1
          (pgrounddown a + 4096#64)
          (copyString (s.mem (frameOf pa0)) (chunk a (pgrounddown a) max) (a - pgrounddown a).toNat dst done).2.2
          (max - chunk a (pgrounddown a) max)
    else pure (-1, dst) := by
  rw [copyinstrLoop]

theorem copyinstrLoop_spec (hsize : psz ≤ maxva) (fuel : Nat) (h : UserTable n s root psz ext) (hfuel : max ≤ fuel) :
    Runs R (copyinstrLoop root psz fuel dst a done max) s fun r t => CopiedStr n s t root psz ext dst a done max r := by
  induction fuel generalizing s a done max dst with
  | zero =>
    obtain rfl : max = 0 := Nat.le_zero.mp hfuel
    exact .pure (.nothing h)
  | succ fuel ih =>
    rw [copyinstrLoop_succ]
    refine .ite (fun hpos => ?_) fun hzero => ?_
    · refine (touch_page h (.inl hsize)).seq fun pa t ⟨hacc, helse, hcase⟩ => ?_
      rcases hcase with ⟨rfl, hwhy⟩ | ⟨hne, ha, w, hw, huser, hpa⟩
      · rw [if_pos rfl]
        exact .pure (.stop hpos hacc helse hwhy)
      · rw [if_neg hne, hpa]
        have hbytes := fun i (hi : i < chunk a (pgrounddown a) max) => chunk_byte psz ha hw huser hi
        have hle := chunk_le a max
        have hpos' : 0 < chunk a (pgrounddown a) max := by
          rw [chunk_eq]
          omega
        refine .get_bind ?_
        rw [toNat_sub_pgrounddown]
        have hscan :=
          copyString_spec (m := t.mem) (f := pteFrame w) (chunk a (pgrounddown a) max) (a.toNat % 4096) done dst
        generalize copyString (t.mem (pteFrame w)) (chunk a (pgrounddown a) max) (a.toNat % 4096) dst done =
          res at hscan ⊢
        rcases hscan with ⟨j, hj, hnul, hbefore, rfl⟩ | ⟨hall, rfl⟩
        · rw [if_pos rfl]
          exact .pure (.last hacc hbytes helse hle hj hnul hbefore)
        · rw [if_neg Bool.false_ne_true]
          have hfuel' : max - chunk a (pgrounddown a) max ≤ fuel := by omega
          refine (ih hacc.table hfuel').mono fun r u hu => ?_
          exact .next hacc hbytes helse hpos hle (fun j hj => add_chunk hj) hall hu
    · obtain rfl : max = 0 := Nat.eq_zero_of_not_pos hzero
      exact .pure (.nothing h)

/-! ## The whole string -/

omit [DecidableEq P] in
theorem IsString.unique {k' : Nat} (h : IsString s root psz a k) (h' : IsString s root psz a k') : k = k' := by
  have hnot : ∀ {k k'}, IsString s root psz a k → IsString s root psz a k' → ¬ k < k' := by
    intro k k' h h' hlt
    obtain ⟨b, hb, hbyte⟩ := h'.2 k hlt
    exact hb (Option.some.inj (hbyte.symm.trans h.1))
  have hlt := hnot h h'
  have hgt := hnot h' h
  omega

omit [DecidableEq P] in
/-- Bytes that can be read are not blocked. -/
theorem not_blocked_of_userByte {va : BitVec 64} {b : UInt8} (h : userByte s root psz va = some b) :
    ¬ Blocked NotUser s root psz va := by
  have hva : va < maxva := by
    by_contra hc
    rw [userByte_of_ge hc] at h
    cases h
  rintro (hge | ⟨w, hw, hdeny⟩ | ⟨hnone, hsize⟩)
  · exact absurd hva (BitVec.not_lt.mpr hge)
  · rw [userByte_denied hva hw hdeny] at h
    cases h
  · rw [userByte_of_none hva hnone, if_neg (BitVec.not_lt.mpr hsize)] at h
    cases h

omit [DecidableEq P] in
theorem NoString.exhausted (h : NoString s t root psz a max) (hk : k < max) (hstr : IsString s root psz a k) :
    ∃ i ≤ k, Exhausted t root (a + BitVec.ofNat 64 i) := by
  have hnot : ¬ NonNul s root psz (a + BitVec.ofNat 64 k) := fun ⟨b, hb, hbyte⟩ =>
    hb (Option.some.inj (hbyte.symm.trans hstr.1))
  rcases h with ⟨i, ⟨-, hbefore⟩, hwhy⟩ | hall
  · have hle : i ≤ k := Nat.le_of_not_lt fun hlt => hnot (hbefore k hlt)
    refine ⟨i, hle, hwhy.resolve_left fun hb => ?_⟩
    rcases Nat.lt_or_eq_of_le hle with hlt | rfl
    · obtain ⟨b, -, hbyte⟩ := hstr.2 i hlt
      exact not_blocked_of_userByte hbyte hb
    · exact not_blocked_of_userByte hstr.1 hb
  · exact absurd (hall k hk) hnot

omit [DecidableEq P] in
theorem strlen_eq {str : Nat → UInt8} {x : Nat} (hnul : str (x + k) = 0) (hbefore : ∀ i < k, str (x + i) ≠ 0)
    {fuel : Nat} (hfuel : k < fuel) : strlen str fuel x = x + k := by
  induction fuel generalizing x k with
  | zero => exact absurd hfuel (Nat.not_lt_zero k)
  | succ fuel ih =>
    rw [strlen]
    cases k with
    | zero =>
      rw [Nat.add_zero] at hnul
      rw [if_pos hnul, Nat.add_zero]
    | succ k =>
      have hstep : ∀ i, x + 1 + i = x + (i + 1) := fun i => by omega
      have hfirst := hbefore 0 (Nat.succ_pos k)
      rw [Nat.add_zero] at hfirst
      rw [if_neg hfirst, ih (x := x + 1) (k := k), hstep]
      · rw [hstep]
        exact hnul
      · intro i hi
        rw [hstep]
        exact hbefore (i + 1) (Nat.succ_lt_succ hi)
      · exact Nat.lt_of_succ_lt_succ hfuel

/-- What `fetchstr()` returns: the length of the string, or an error. -/
def FetchedStr (s t : Phys) (root : Frame) (psz addr : BitVec 64) (max : BitVec 32) (r : Int × (Nat → UInt8)) : Prop :=
  (∃ k < max.toNat, IsString s root psz addr k ∧ r.1 = k ∧
    ∀ i ≤ k, some (r.2 i) = userByte s root psz (addr + BitVec.ofNat 64 i)) ∨
  (r.1 = -1 ∧ ∀ k < max.toNat, IsString s root psz addr k → ∃ i ≤ k, Exhausted t root (addr + BitVec.ofNat 64 i))

/-- `fetchstr()`, and that user memory has only been read. -/
theorem fetchstr_accessed {addr : BitVec 64} {max : BitVec 32} (hsize : psz ≤ maxva) (h : UserTable n s root psz ext)
    (hmax : 0 ≤ max.toInt) :
    Runs R (fetchstr root psz addr dst max) s fun r t =>
      Accessed n s t root psz ext (fun _ => none) ∧ FetchedStr s t root psz addr max r := by
  have hlen : (max.signExtend 64).toNat = max.toNat := by
    have hadd := toNat_add_int 0#64 max
    rw [BitVec.zero_add, BitVec.toNat_zero] at hadd
    rw [BitVec.toInt_eq_toNat_cond] at hadd hmax
    have hlt := max.isLt
    split at hadd
    · omega
    · omega
  unfold fetchstr
  refine (copyinstrLoop_spec hsize _ h (Nat.le_refl _)).seq fun r t ht => ?_
  rw [hlen] at ht ⊢
  rcases ht.result with ⟨hr, k, hk, hstr, hgot⟩ | ⟨hr, hno⟩
  · rw [hr, if_neg (by decide)]
    have hbyte : ∀ i ≤ k, some (r.2 i) = userByte s root psz (addr + BitVec.ofNat 64 i) := by
      intro i hi
      have hbyte := (hgot i hi).2
      rwa [Nat.zero_add] at hbyte
    refine .pure ⟨ht.accessed, .inl ⟨k, hk, hstr, ?_, hbyte⟩⟩
    have hstrlen : strlen r.2 max.toNat 0 = 0 + k := strlen_eq ?_ ?_ hk
    · dsimp only
      rw [hstrlen, Nat.zero_add]
    · rw [Nat.zero_add]
      exact Option.some.inj ((hbyte k (Nat.le_refl k)).trans hstr.1)
    · intro i hi
      obtain ⟨b, hb, heq⟩ := hstr.2 i hi
      rw [Nat.zero_add, Option.some.inj ((hbyte i (Nat.le_of_lt hi)).trans heq)]
      exact hb
  · rw [hr, if_pos (by decide)]
    exact .pure ⟨ht.accessed, .inr ⟨rfl, fun k hk hstr => hno.exhausted hk hstr⟩⟩

theorem fetchstr_spec {addr : BitVec 64} {max : BitVec 32} (hsize : psz ≤ maxva) (h : UserTable n s root psz ext)
    (hmax : 0 ≤ max.toInt) :
    Runs R (fetchstr root psz addr dst max) s fun r t => FetchedStr s t root psz addr max r :=
  (fetchstr_accessed hsize h hmax).mono fun _ _ ht => ht.2

/-- **`copyinstr()` fetches exactly the string.** It succeeds iff the string ends within `max` bytes, all of them can be
read and there is memory for their pages; it then holds these bytes. In any case no page is touched but those of the
bytes that it looks at. -/
theorem copyinstr_exact (h : UserTable n s root psz ext) (hsize : psz ≤ maxva) :
    (∀ (dst : Nat → UInt8) (va max : BitVec 64), Runs (fun _ => False) (copyinstr root psz dst va max) s fun r t =>
      Accessed n s t root psz ext (fun _ => none) ∧ (r.1 = 0 ∨ r.1 = -1) ∧
      (r.1 = 0 ↔ ∃ k < max.toNat, IsString s root psz va k ∧ ∀ i ≤ k, ¬ Exhausted t root (va + BitVec.ofNat 64 i)) ∧
      Untouched s t root psz va max.toNat ∧
      (∀ k, r.1 = 0 → IsString s root psz va k → ∀ i ≤ k, some (r.2 i) = userByte s root psz (va + BitVec.ofNat 64 i)) ∧
      ∀ x, max.toNat ≤ x → r.2 x = dst x) ∧
    ∀ (buf : Nat → UInt8) (max : BitVec 32), 0 ≤ max.toInt →
      (∀ addr, Runs (fun _ => False) (fetchstr root psz addr buf max) s fun r t => FetchedStr s t root psz addr max r) ∧
      ∀ args i, Runs (fun _ => False) (argstr root psz args i buf max) s fun r t =>
        FetchedStr s t root psz (args i) max r := by
  refine ⟨fun dst va max => ?_, fun buf max hmax => ⟨fun addr => fetchstr_spec hsize h hmax, fun args i =>
  fetchstr_spec hsize h hmax⟩⟩
  refine (copyinstrLoop_spec hsize max.toNat h (Nat.le_refl _)).mono fun r t ht => ?_
  refine ⟨ht.accessed, ht.result.imp And.left And.left, ⟨fun hr => ?_, fun ⟨k, hk, hstr, hmem⟩ => ?_⟩, ht.untouched,
    fun k hr hstr => ?_, fun x hx => ?_⟩
  · rcases ht.result with ⟨-, k, hk, hstr, hgot⟩ | ⟨hr', -⟩
    · exact ⟨k, hk, hstr, fun i hi he => (hgot i hi).1.not_blocked ht.accessed (.inr he)⟩
    · rw [hr] at hr'
      exact absurd hr' (by decide)
  · rcases ht.result with ⟨hr, -⟩ | ⟨-, hno⟩
    · exact hr
    · obtain ⟨i, hi, he⟩ := hno.exhausted hk hstr
      exact absurd he (hmem i hi)
  · rcases ht.result with ⟨-, k', -, hstr', hgot⟩ | ⟨hr', -⟩
    · obtain rfl := hstr.unique hstr'
      intro i hi
      have hbyte := (hgot i hi).2
      rwa [Nat.zero_add] at hbyte
    · rw [hr] at hr'
      exact absurd hr' (by decide)
  · rcases ht.dst x with hsame | ⟨i, hi, heq, -⟩
    · exact hsame
    · omega

/-- A string of two bytes. -/
theorem copyinstr_exact_twoBytes : ∃ s, UserTable userPages s 7 4096#64 (others blank 7) ∧
    Runs (fun _ => False) (copyinstr 7 4096#64 (fun _ => 1) 0#64 16#64) s (fun r _ =>
      r.1 = 0 ∧ r.2 0 = 9 ∧ r.2 2 = 0 ∧ r.2 16 = 1) ∧
    Runs (fun _ => False) (fetchstr 7 4096#64 0#64 (fun _ => 1) 16#32) s fun r _ => r.1 = 2 ∨ r.1 = -1 := by
  obtain ⟨s, htable, hpage⟩ := exists_userTable fun i => if i < 2 then 9 else 0
  have hbyte : ∀ i < 4096, userByte s 7 4096#64 (0#64 + BitVec.ofNat 64 i) = some (if i < 2 then 9 else 0) ∧
      Allowed NotUser s 7 (0#64 + BitVec.ofNat 64 i) := by
    intro i hi
    rw [BitVec.zero_add]
    exact hpage i hi
  have hstr : IsString s 7 4096#64 0#64 2 :=
    ⟨(hbyte 2 (by decide)).1, fun i hi => ⟨9, by decide, by rw [(hbyte i (by omega)).1, if_pos hi]⟩⟩
  obtain ⟨hcopy, hfetch⟩ := copyinstr_exact htable (by decide)
  refine ⟨s, htable, (hcopy _ _ _).mono fun r t ⟨hacc, _, hiff, _, hgot, hout⟩ => ?_,
    ((hfetch _ _ (by decide)).1 _).mono fun r t hr => ?_⟩
  · have hr : r.1 = 0 := by
      refine hiff.mpr ⟨2, by decide, hstr, fun i hi he => ?_⟩
      exact (hacc.allowed (hbyte i (by omega)).2).not_blocked hacc (.inr he)
    have hbytes := hgot 2 hr hstr
    exact ⟨hr, Option.some.inj ((hbytes 0 (by decide)).trans (hbyte 0 (by decide)).1),
      Option.some.inj ((hbytes 2 (by decide)).trans (hbyte 2 (by decide)).1), hout 16 (by decide)⟩
  · rcases hr with ⟨k, -, hk, hr, -⟩ | ⟨hr, -⟩
    · rw [hk.unique hstr] at hr
      exact .inl hr
    · exact .inr hr

/-- Above `MAXVA`, with a size that reaches there, `copyinstr()` does not return: `walk()` panics. -/
theorem copyinstr_panics_above_maxva : UserTable (2 ^ 26) blank 7 (maxva + 4096#64) (others blank 7) ∧
    Runs (fun e => e = .walk) (copyinstr 7 (maxva + 4096#64) (fun _ => 0) maxva 1#64) blank fun _ _ => False := by
  refine ⟨blank_userTable, ?_⟩
  have hone : (1#64).toNat = 0 + 1 := rfl
  unfold copyinstr
  rw [hone, copyinstrLoop_succ, if_pos (by decide), pgrounddown_maxva]
  exact touch_above_maxva.seq fun _ _ hc => hc.elim

end

end Xv6.Vm
