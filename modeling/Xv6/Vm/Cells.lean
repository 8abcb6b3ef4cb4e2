import Mathlib.Data.List.Perm.Subperm
import Xv6.Vm.Grow
import Xv6.Vm.ProcTable
import Xv6.Vm.Transfer

/-!
# User memory as a map

* `Cells` : what is at each user address: the flags of its page and its byte; `Cells.alloc`, `Cells.write`,
  `Cells.guard` : what `uvmalloc()`, `copyout()` and `uvmclear()` do to it;
* `UserMem s t root ext top sz m` : the page table `root` has been built from the free pages of `s` and maps the `sz`
  bytes `m`, with the entries `top` above them;
* `UserMem.uvmalloc`, `UserMem.store`, `UserMem.uvmclear`, `UserMem.copyout` : the functions, on the map;
* `UserMem.free` : the page table and its pages go.
-/

namespace Xv6.Vm
open Radix Alloc Hoare Function

abbrev Cells := Nat → Option (BitVec 64 × UInt8)

def cell (s : Phys) (root : Frame) (a : Nat) : Option (BitVec 64 × UInt8) :=
  (leaf s.mem root (BitVec.ofNat 64 a)).map fun w => (pteFlags w, s.mem (pteFrame w) (a % 4096))

namespace Cells

variable {m : Cells} {a : Nat} {src : Nat → UInt8}

/-- Pages `b, …, v - 1` are new, with the flags `perm`. -/
def alloc (m : Cells) (b v : Nat) (perm : BitVec 64) : Cells :=
  fun a => if b ≤ a / 4096 ∧ a / 4096 < v then some (perm ||| pteV, 0) else m a

/-- Bytes from `a` on are overwritten. -/
def write (m : Cells) (a n : Nat) (src : Nat → UInt8) : Cells :=
  fun x => if a ≤ x ∧ x < a + n then (m x).map fun c => (c.1, src (x - a)) else m x

/-- Page `v` is closed to users. -/
def guard (m : Cells) (v : Nat) : Cells :=
  fun a => if a / 4096 = v then (m a).map fun c => (c.1 &&& ~~~ pteU, c.2) else m a

theorem alloc_of_le {b v : Nat} {perm : BitVec 64} (h : v ≤ b) : m.alloc b v perm = m := by
  funext a
  rw [alloc, if_neg (by omega)]

theorem write_zero : m.write a 0 src = m := by
  funext x
  rw [write, if_neg (by omega)]

/-- Two pieces, one after the other. -/
theorem write_write {k j : Nat} :
    (m.write a k src).write (a + k) j (fun i => src (k + i)) = m.write a (k + j) src := by
  funext x
  rw [write, write, write]
  by_cases hlow : a ≤ x ∧ x < a + k
  · rw [if_neg (by omega), if_pos hlow, if_pos (by omega)]
  · by_cases hhigh : a + k ≤ x ∧ x < a + k + j
    · rw [if_pos hhigh, if_neg hlow, if_pos (by omega), show k + (x - (a + k)) = x - a by omega]
    · rw [if_neg hhigh, if_neg hlow, if_neg (by omega)]

theorem write_congr {n : Nat} {src' : Nat → UInt8} (h : ∀ k < n, src k = src' k) :
    m.write a n src = m.write a n src' := by
  funext x
  rw [write, write]
  by_cases hin : a ≤ x ∧ x < a + n
  · rw [if_pos hin, if_pos hin, h _ (by omega)]
  · rw [if_neg hin, if_neg hin]

theorem write_ne_none {n x : Nat} : m.write a n src x ≠ none ↔ m x ≠ none := by
  rw [write]
  split
  · rw [ne_eq, Option.map_eq_none_iff]
  · rfl

theorem guard_ne_none {v : Nat} : m.guard v a ≠ none ↔ m a ≠ none := by
  rw [guard]
  split
  · rw [ne_eq, Option.map_eq_none_iff]
  · rfl

end Cells

/-! ## User addresses -/

section
variable {a v : Nat}

theorem toNat_user (h : a < userPages * 4096) : (BitVec.ofNat 64 a).toNat = a := by
  rw [userPages] at h
  rw [BitVec.toNat_ofNat, Nat.mod_eq_of_lt (by omega)]

theorem user_lt_maxva (h : a < userPages * 4096) : BitVec.ofNat 64 a < maxva := by
  rw [BitVec.lt_def, toNat_user h, toNat_maxva]
  rw [userPages] at h
  omega

theorem vpn_user (h : a < userPages * 4096) : vpn (BitVec.ofNat 64 a) = a / 4096 := by rw [vpn, toNat_user h]

theorem leaf_user {m : Mem} {root : Frame} (h : a < userPages * 4096) :
    leaf m root (BitVec.ofNat 64 a) = leaf m root (vaOf (a / 4096)) := by
  rw [← leaf_vaOf (user_lt_maxva h), vpn_user h]

theorem size_le_pgrounddown {sz va : BitVec 64} (hsize : sz.toNat ≤ userPages * 4096) (hge : userPages ≤ vpn va) :
    sz ≤ pgrounddown va := by
  rw [BitVec.le_def, toNat_pgrounddown]
  exact hsize.trans (Nat.mul_le_mul_right 4096 hge)

theorem page_lt (h : a < userPages * 4096) : a / 4096 < userPages := by omega

end

/-! ## Built page tables -/

section
variable {P : Type} {s t u : Phys} {root f r tramp tf : Frame} {ext : P → Option Frame} {top : Nat → Option (BitVec 64)}
  {sz newsz perm w : BitVec 64} {a b n v k : Nat} {m : Cells} {src : Nat → UInt8} {R : VmPanic → Prop} {x : Nat}

structure UserMem (s t : Phys) (root : Frame) (ext : P → Option Frame) (top : Nat → Option (BitVec 64)) (sz : BitVec 64)
    (m : Cells) : Prop where
  space : Space userPages t root ext []
  low : Low t.mem root
  kend : t.kend = s.kend
  kept : ∀ q f, ext q = some f → t.mem f = s.mem f
  top : ∀ va < maxva, userPages ≤ vpn va → leaf t.mem root va = top (vpn va)
  size : sz.toNat ≤ userPages * 4096
  cells : ∀ a < userPages * 4096, cell t root a = m a
  mapped : ∀ a < userPages * 4096, m a ≠ none ↔ a / 4096 < pages sz

theorem cell_ne_none : cell t root a ≠ none ↔ leaf t.mem root (BitVec.ofNat 64 a) ≠ none := by
  rw [cell, ne_eq, Option.map_eq_none_iff]

theorem UserMem.leaf_ne_none (h : UserMem s t root ext top sz m) (hv : v < userPages) :
    leaf t.mem root (vaOf v) ≠ none ↔ v < pages sz := by
  have ha : v * 4096 < userPages * 4096 := by omega
  have hdiv : v * 4096 / 4096 = v := Nat.mul_div_cancel _ (by decide)
  have hmapped := h.mapped _ ha
  rw [← h.cells _ ha, cell_ne_none, leaf_user ha, hdiv] at hmapped
  exact hmapped

theorem UserMem.leaf_eq_none (h : UserMem s t root ext top sz m) (hv : v < userPages) (hge : pages sz ≤ v) :
    leaf t.mem root (vaOf v) = none := by
  by_contra hc
  exact absurd ((h.leaf_ne_none hv).mp hc) (Nat.not_lt.mpr hge)

/-- A page table without user memory. -/
theorem UserMem.of_made (h : Made s t root ext [] top) (hempty : ∀ v < userPages, top v = none) :
    UserMem s t root ext top 0 fun _ => none := by
  have hleaf : ∀ v < userPages, leaf t.mem root (vaOf v) = none := fun v hv => by
    have hlt : v < 2 ^ 26 := hv.trans (by decide)
    rw [h.leaf _ (vaOf_lt hlt), vpn_vaOf hlt, hempty v hv]
  have hframes : ∀ v, leafFrames userPages t.mem root v = none := fun v => by
    by_cases hv : v < userPages
    · exact leafFrames_of_none (hleaf v hv)
    · exact if_neg hv
  refine ⟨⟨h.tree.empty hframes, h.sound, fun v f hf => ?_, by decide⟩, h.low, h.kend, fun q f hq =>
    h.mem f (.inl ⟨q, hq⟩), fun va hva _ => h.leaf va hva, Nat.zero_le _, fun a ha => ?_, fun a _ =>
    ⟨fun hc => absurd rfl hc, fun hc => ?_⟩⟩
  · rw [hframes] at hf
    cases hf
  · rw [cell, leaf_user ha, hleaf _ (page_lt ha), Option.map_none]
  · exact absurd hc (Nat.not_lt_zero _)

/-- The page of a user address. -/
theorem leafFrames_user (ha : a < userPages * 4096) (hw : leaf t.mem root (BitVec.ofNat 64 a) = some w) :
    leafFrames userPages t.mem root (a / 4096) = some (pteFrame w) := by
  rw [leafFrames_of_lt (page_lt ha), ← leaf_user ha, hw, Option.map_some]

/-- The user pages and the free pages are not more than there is memory. -/
theorem UserMem.room (h : UserMem s t root ext top sz m) : pages sz + t.freelist.length ≤ phystop / 4096 := by
  have hpages : pages sz ≤ userPages := pages_le h.size
  have hsome : ∀ v < pages sz, ∃ f, leafFrames userPages t.mem root v = some f := by
    intro v hv
    obtain ⟨w, hw⟩ := Option.ne_none_iff_exists'.mp ((h.leaf_ne_none (hv.trans_le hpages)).mpr hv)
    exact ⟨pteFrame w, by rw [leafFrames_of_lt (hv.trans_le hpages), hw, Option.map_some]⟩
  have hget : ∀ v < pages sz, leafFrames userPages t.mem root v =
      some ((leafFrames userPages t.mem root v).getD 0) := by
    intro v hv
    obtain ⟨f, hf⟩ := hsome v hv
    rw [hf, Option.getD_some]
  let used := (List.range (pages sz)).map fun v => (leafFrames userPages t.mem root v).getD 0
  have hlen : used.length = pages sz := by rw [List.length_map, List.length_range]
  have hmem : ∀ f ∈ used, ∃ v < pages sz, leafFrames userPages t.mem root v = some f := by
    intro f hf
    obtain ⟨v, hv, rfl⟩ := List.mem_map.mp hf
    exact ⟨v, List.mem_range.mp hv, hget v (List.mem_range.mp hv)⟩
  have hnodup : (used ++ t.freelist).Nodup := by
    refine List.Nodup.append (List.Nodup.map_on (fun v hv v' hv' heq => ?_) List.nodup_range) h.space.tree.nodup
      fun f hf hfree => ?_
    · have hv1 := hget v (List.mem_range.mp hv)
      have hv2 := hget v' (List.mem_range.mp hv')
      rw [heq] at hv1
      exact h.space.once hv1 hv2
    · obtain ⟨v, -, hv⟩ := hmem f hf
      exact h.space.not_free hv hfree
  have hpool : ∀ f ∈ used ++ t.freelist, f.toNat < phystop / 4096 := by
    intro f hf
    have hin : t.InPool f := by
      rcases List.mem_append.mp hf with hf | hf
      · obtain ⟨v, -, hv⟩ := hmem f hf
        exact h.space.pool v f hv
      · exact h.space.sound.free f hf
    have hlt := hin.2
    rw [toNat_addr] at hlt
    rw [phystop] at hlt ⊢
    omega
  have hsub : (used ++ t.freelist).map BitVec.toNat ⊆ List.range (phystop / 4096) := by
    intro x hx
    obtain ⟨f, hf, rfl⟩ := List.mem_map.mp hx
    exact List.mem_range.mpr (hpool f hf)
  have hle := (List.subperm_of_subset (hnodup.map fun _ _ => BitVec.eq_of_toNat_eq) hsub).length_le
  rw [List.length_map, List.length_append, List.length_range, hlen] at hle
  exact hle

theorem UserMem.restored (h : UserMem s t root ext top sz m) (hu : Restored userPages t u root ext) :
    UserMem s u root ext top sz m := by
  refine ⟨hu.space, hu.keeps.low h.low, hu.keeps.kend.trans h.kend, fun q f hq => ?_, fun va hva hge => ?_,
    h.size, fun a ha => ?_, h.mapped⟩
  · rw [hu.keeps.outer.mem f (.inl ⟨q, hq⟩), h.kept q f hq]
  · rw [hu.leaf va hva, h.top va hva hge]
  · rw [← h.cells a ha, cell, cell, hu.leaf _ (user_lt_maxva ha)]
    cases hw : leaf t.mem root (BitVec.ofNat 64 a) with
    | none => rfl
    | some w => rw [Option.map_some, Option.map_some, hu.keeps.leaf (leafFrames_user ha hw)]

theorem UserMem.filled (h : UserMem s t root ext top sz m) (hperm : perm.toNat < 2 ^ 10) (hle : sz ≤ newsz)
    (hsize : newsz.toNat ≤ userPages * 4096)
    (hu : Filled userPages t u root ext (pages sz) (pages newsz) (zeroPages perm)) :
    UserMem s u root ext top newsz (m.alloc (pages sz) (pages newsz) perm) := by
  have hpages := pages_le hsize
  have hmono := pages_mono (BitVec.le_def.mp hle)
  refine ⟨hu.space, hu.keeps.low h.low, hu.keeps.kend.trans h.kend, fun q f hq => ?_, fun va hva hge => ?_,
    hsize, fun a ha => ?_, fun a ha => ?_⟩
  · rw [hu.keeps.outer.mem f (.inl ⟨q, hq⟩), h.kept q f hq]
  · rw [hu.rest va hva (by omega), h.top va hva hge]
  · rw [cell, leaf_user ha, Cells.alloc]
    by_cases hin : pages sz ≤ a / 4096 ∧ a / 4096 < pages newsz
    · obtain ⟨r, -, hleaf, hzero⟩ := hu.page _ perm _ hin.1 hin.2 rfl
      rw [if_pos hin, hleaf, Option.map_some, BitVec.or_assoc, pteFlags_mk (perm_or_lt hperm),
        pteFrame_mk (perm_or_lt hperm), hzero]
    · have hsame := hu.rest _ (user_lt_maxva ha) (by rwa [vpn_user ha])
      rw [if_neg hin, ← leaf_user ha, hsame, ← h.cells a ha, cell]
      cases hw : leaf t.mem root (BitVec.ofNat 64 a) with
      | none => rfl
      | some w => rw [Option.map_some, Option.map_some, hu.keeps.leaf (leafFrames_user ha hw)]
  · rw [Cells.alloc]
    by_cases hin : pages sz ≤ a / 4096 ∧ a / 4096 < pages newsz
    · rw [if_pos hin]
      exact ⟨fun _ => hin.2, fun _ => Option.some_ne_none _⟩
    · rw [if_neg hin, h.mapped a ha]
      omega

/-- Bytes of one page are overwritten. -/
theorem UserMem.store (src : Nat → UInt8) (h : UserMem s t root ext top sz m) (ha : a < userPages * 4096)
    (hn : a % 4096 + n ≤ 4096) (hw : leaf t.mem root (BitVec.ofNat 64 a) = some w) :
    UserMem s { t with mem := t.mem.store (pteFrame w) (a % 4096) n src } root ext top sz (m.write a n src) := by
  have hframe := leafFrames_user ha hw
  obtain ⟨hspace, hmoved⟩ := h.space.write (x := fun i =>
    if a % 4096 ≤ i ∧ i < a % 4096 + n then src (i - a % 4096) else t.mem (pteFrame w) i) hframe
  rw [← Mem.store] at hspace hmoved
  refine ⟨hspace, hmoved.keeps.low h.low, h.kend, fun q f hq => ?_, fun va hva hge => ?_, h.size,
    fun x hx => ?_, fun x hx => ?_⟩
  · rw [hmoved.keeps.mem f (.inl ⟨q, hq⟩), h.kept q f hq]
  · rw [hmoved.leaf va, h.top va hva hge]
  · rw [cell, hmoved.leaf, Cells.write, ← h.cells x hx, cell]
    cases hw' : leaf t.mem root (BitVec.ofNat 64 x) with
    | none =>
      rw [Option.map_none, Option.map_none, Option.map_none, ite_self]
    | some w' =>
      have hframe' := leafFrames_user hx hw'
      rw [Option.map_some, Option.map_some]
      dsimp only
      by_cases hpage : x / 4096 = a / 4096
      · rw [hpage, hframe] at hframe'
        have heq : pteFrame w' = pteFrame w := (Option.some.inj hframe').symm
        rw [heq, store_self]
        dsimp only
        by_cases hin : a ≤ x ∧ x < a + n
        · rw [if_pos (by omega), if_pos hin, Option.map_some, show x % 4096 - a % 4096 = x - a by omega]
        · rw [if_neg (by omega), if_neg hin]
      · have hne : pteFrame w' ≠ pteFrame w := by
          intro hc
          rw [hc] at hframe'
          exact hpage (h.space.once hframe' hframe)
        rw [if_neg (by omega), store_of_ne hne]
  · rw [Cells.write_ne_none, h.mapped x hx]

/-! ## Flags -/

theorem pteFlags_and {mask : BitVec 64} (h : 0x3FF#64 &&& mask = mask) : pteFlags w &&& mask = w &&& mask := by
  rw [pteFlags, BitVec.and_assoc, h]

theorem pteFlags_clear (w : BitVec 64) : pteFlags (w &&& ~~~ pteU) = pteFlags w &&& ~~~ pteU := by
  rw [pteFlags, pteFlags, BitVec.and_assoc, BitVec.and_assoc, BitVec.and_comm (~~~ pteU)]

theorem pteFrame_clear (w : BitVec 64) : pteFrame (w &&& ~~~ pteU) = pteFrame w := by
  have hbit : ∀ i : Fin 52, (~~~ pteU).getLsbD (10 + i) = true := by decide
  apply BitVec.eq_of_getLsbD_eq
  intro i hi
  have hi' := hbit ⟨i, hi⟩
  have h64 : i < 64 ∧ 12 + i < 64 := by omega
  simp only [pteFrame, frameOf, pte2pa, BitVec.getLsbD_setWidth, BitVec.getLsbD_ushiftRight, BitVec.getLsbD_shiftLeft,
    BitVec.getLsbD_and, Nat.add_sub_cancel_left, hi', Bool.and_true]

theorem valid_clear (h : w &&& pteV ≠ 0) : valid (w &&& ~~~ pteU) = some (w &&& ~~~ pteU) := by
  refine valid_of_ne ?_
  rw [BitVec.and_assoc, show ~~~ pteU &&& pteV = pteV by decide]
  exact h

/-- `uvmclear()` of a page that is mapped. -/
theorem UserMem.uvmclear [DecidableEq P] (h : UserMem s t root ext top sz m) (hv : v < pages sz) :
    Runs R (uvmclear root (vaOf v)) t fun _ u => UserMem s u root ext top sz (m.guard v) := by
  have hv' : v < userPages := hv.trans_le (pages_le h.size)
  have h26 : v < 2 ^ 26 := hv'.trans (by decide)
  have hva := vaOf_lt h26
  obtain ⟨w, hw⟩ := Option.ne_none_iff_exists'.mp ((h.leaf_ne_none hv').mpr hv)
  unfold Vm.uvmclear
  refine lookup_bind hva (fun hnone => ?_) fun f hf => getPte_bind (.of_modify ?_)
  · rw [leaf, hnone, Option.bind_none] at hw
    cases hw
  · have hpte : valid (t.mem.pte f (px 0 (vaOf v))) = some w := (leaf_of_tables hf).symm.trans hw
    obtain ⟨heq, hvalid⟩ := valid_eq_some hpte
    dsimp only
    rw [heq]
    have he := h.space.tree.setLeaf hf (w &&& ~~~ pteU)
    have hleaf : ∀ va' < maxva, leaf (t.mem.setPte f (px 0 (vaOf v)) (w &&& ~~~ pteU)) root va' =
        if vpn va' = v then some (w &&& ~~~ pteU) else leaf t.mem root va' := fun va' hva' => by
      rw [leaf_setPte h.space.tree.distinct hf _ hva hva', vpn_vaOf h26, valid_clear hvalid]
    have hframes : leafFrames userPages (t.mem.setPte f (px 0 (vaOf v)) (w &&& ~~~ pteU)) root =
        leafFrames userPages t.mem root := by
      rw [leafFrames_update (by decide) hv' hleaf, Option.map_some, pteFrame_clear]
      refine update_eq_self_iff.mpr ?_
      rw [leafFrames_of_lt hv', hw, Option.map_some]
    refine ⟨h.space.of_edits he hframes, he.keeps.low h.low, he.keeps.kend.trans h.kend, fun q f' hq => ?_,
      fun va' hva' hge => ?_, h.size, fun a ha => ?_, fun a ha => ?_⟩
    · rw [he.keeps.outer.mem f' (.inl ⟨q, hq⟩), h.kept q f' hq]
    · rw [hleaf va' hva', if_neg (by omega), h.top va' hva' hge]
    · rw [cell, hleaf _ (user_lt_maxva ha), vpn_user ha, Cells.guard, ← h.cells a ha, cell]
      have hmem : ∀ w', leaf t.mem root (BitVec.ofNat 64 a) = some w' →
          t.mem.setPte f (px 0 (vaOf v)) (w &&& ~~~ pteU) (pteFrame w') = t.mem (pteFrame w') := fun w' hw' =>
        he.keeps.mem _ (.inl ⟨Sum.inl (a / 4096), leafFrames_user ha hw'⟩)
      by_cases hav : a / 4096 = v
      · have hw' : leaf t.mem root (BitVec.ofNat 64 a) = some w := by rw [leaf_user ha, hav, hw]
        rw [if_pos hav, if_pos hav, hw', Option.map_some, Option.map_some, Option.map_some,
          pteFlags_clear, pteFrame_clear]
        dsimp only
        rw [hmem w hw']
      · rw [if_neg hav, if_neg hav]
        cases hw' : leaf t.mem root (BitVec.ofNat 64 a) with
        | none => rfl
        | some w' =>
          rw [Option.map_some, Option.map_some]
          dsimp only
          rw [hmem w' hw']
    · rw [Cells.guard_ne_none, h.mapped a ha]

/-! ## Writing through the page table -/

/-- The entries above user memory are the kernel's. -/
def TopKernel (top : Nat → Option (BitVec 64)) (ext : P → Option Frame) : Prop :=
  ∀ v w, top v = some w → w &&& pteU = 0 ∧ ∃ q, ext q = some (pteFrame w)

theorem topKernel_topPages (htramp : ∃ q, ext q = some tramp) (htf : ∃ q, ext q = some tf) :
    TopKernel (topPages tramp tf) ext := by
  have hentry : ∀ {f : Frame} {perm : BitVec 64}, (perm ||| pteV).toNat < 2 ^ 10 → (perm ||| pteV) &&& pteU = 0 →
      (∃ q, ext q = some f) → (pa2pte f.addr ||| perm ||| pteV) &&& pteU = 0 ∧
      ∃ q, ext q = some (pteFrame (pa2pte f.addr ||| perm ||| pteV)) := by
    intro f perm hperm huser hf
    rw [BitVec.or_assoc, pteFrame_mk hperm, ← pteFlags_and (by decide), pteFlags_mk hperm]
    exact ⟨huser, hf⟩
  intro v w hw
  rw [topPages] at hw
  by_cases hv : v = userPages
  · rw [hv, update_self] at hw
    rw [← Option.some.inj hw]
    exact hentry (by decide) (by decide) htf
  · rw [update_of_ne hv] at hw
    by_cases hv' : v = 2 ^ 26 - 1
    · rw [hv', update_self] at hw
      rw [← Option.some.inj hw]
      exact hentry (by decide) (by decide) htramp
    · rw [update_of_ne hv'] at hw
      cases hw

theorem topPages_user (hv : v < userPages) : topPages tramp tf v = none := by
  rw [topPages, update_of_ne (Nat.ne_of_lt hv), update_of_ne (by rw [userPages] at hv; omega)]

theorem UserMem.table (h : UserMem s t root ext top sz m) (htop : TopKernel top ext) (hkend : 0 < s.kend) :
    UserTable userPages t root sz ext := by
  refine ⟨h.space, ⟨fun va hva hge _ => ?_, fun va hva hge w hw =>
    htop (vpn va) w ((h.top va hva hge).symm.trans hw)⟩, ?_⟩
  · exact size_le_pgrounddown h.size hge
  · rw [h.kend]
    exact hkend

theorem UserMem.leaf_of_cell {c : BitVec 64 × UInt8} (h : UserMem s t root ext top sz m) (ha : a < userPages * 4096)
    (hc : m a = some c) : ∃ w, leaf t.mem root (BitVec.ofNat 64 a) = some w ∧ pteFlags w = c.1 := by
  rw [← h.cells a ha, cell, Option.map_eq_some_iff] at hc
  obtain ⟨w, hw, rfl⟩ := hc
  exact ⟨w, hw, rfl⟩

/-- A user may read the address. -/
def Cells.Readable (m : Cells) (x : Nat) : Prop := ∃ c, m x = some c ∧ c.1 &&& pteU ≠ 0

/-- A user may write to the address. -/
def Cells.Writable (m : Cells) (x : Nat) : Prop := ∃ c, m x = some c ∧ c.1 &&& pteU ≠ 0 ∧ c.1 &&& pteW ≠ 0

/-- Writing leaves the flags as they are. -/
theorem Cells.write_flags (src : Nat → UInt8) {c : BitVec 64 × UInt8} (h : m x = some c) :
    ∃ y, m.write a n src x = some (c.1, y) := by
  rw [Cells.write]
  split
  · exact ⟨_, by rw [h, Option.map_some]⟩
  · exact ⟨c.2, h⟩

theorem Cells.Readable.write (h : m.Readable x) : (m.write a n src).Readable x := by
  obtain ⟨c, hc, huser⟩ := h
  obtain ⟨y, hy⟩ := Cells.write_flags (a := a) (n := n) src hc
  exact ⟨_, hy, huser⟩

theorem Cells.Writable.write (h : m.Writable x) : (m.write a n src).Writable x := by
  obtain ⟨c, hc, huser, hwrite⟩ := h
  obtain ⟨y, hy⟩ := Cells.write_flags (a := a) (n := n) src hc
  exact ⟨_, hy, huser, hwrite⟩

theorem UserMem.leaf_readable (h : UserMem s t root ext top sz m) (ha : a < userPages * 4096) (hm : m.Readable a) :
    ∃ w, leaf t.mem root (BitVec.ofNat 64 a) = some w ∧ ¬ NotUser w := by
  obtain ⟨c, hc, huser⟩ := hm
  obtain ⟨w, hw, hflags⟩ := h.leaf_of_cell ha hc
  rw [← hflags, pteFlags_and (by decide)] at huser
  exact ⟨w, hw, huser⟩

theorem UserMem.leaf_writable (h : UserMem s t root ext top sz m) (ha : a < userPages * 4096) (hm : m.Writable a) :
    ∃ w, leaf t.mem root (BitVec.ofNat 64 a) = some w ∧ ¬ NotWritable w := by
  obtain ⟨c, hc, huser, hwrite⟩ := hm
  obtain ⟨w, hw, hflags⟩ := h.leaf_of_cell ha hc
  rw [← hflags, pteFlags_and (by decide)] at huser hwrite
  exact ⟨w, hw, fun hd => hd.elim huser hwrite⟩

theorem UserMem.accessed {len : Nat} (h : UserMem s t root ext top sz m) (ha : a + len ≤ userPages * 4096)
    (hrange : ∀ x, a ≤ x → x < a + len → m.Writable x)
    (hacc : Accessed userPages t u root sz ext (written (BitVec.ofNat 64 a) len src)) :
    UserMem s u root ext top sz (m.write a len src) := by
  refine ⟨hacc.table.space, hacc.keeps.low h.low, hacc.keeps.kend.trans h.kend, fun q f hq => ?_,
    fun va hva hge => ?_, h.size, fun x hx => ?_, fun x hx => ?_⟩
  · rw [hacc.keeps.mem f (.inl ⟨q, hq⟩), h.kept q f hq]
  · rw [← h.top va hva hge]
    cases hw : leaf t.mem root va with
    | some w => exact hacc.kept va hva w hw
    | none =>
      by_contra hc
      obtain ⟨w', hw'⟩ := Option.ne_none_iff_exists'.mp hc
      exact absurd (hacc.fresh va hva w' hw hw').1 (BitVec.not_lt.mpr (size_le_pgrounddown h.size hge))
  · have hva := user_lt_maxva hx
    rw [cell, Cells.write, ← h.cells x hx, cell]
    cases hw : leaf t.mem root (BitVec.ofNat 64 x) with
    | none =>
      have hnone : leaf u.mem root (BitVec.ofNat 64 x) = none := by
        by_contra hc
        obtain ⟨w', hw'⟩ := Option.ne_none_iff_exists'.mp hc
        have hlt := (hacc.fresh _ hva w' hw hw').1
        rw [BitVec.lt_def, toNat_pgrounddown, toNat_user hx] at hlt
        have hin := (h.mapped x hx).mpr (by rw [pages]; omega)
        rw [← h.cells x hx, cell_ne_none] at hin
        exact hin hw
      rw [hnone, Option.map_none, Option.map_none, Option.map_none, ite_self]
    | some w =>
      have hw' := hacc.kept _ hva w hw
      rw [hw', Option.map_some, Option.map_some]
      by_cases hin : a ≤ x ∧ x < a + len
      · obtain ⟨w'', hleaf, hallow⟩ := h.leaf_writable hx (hrange x hin.1 hin.2)
        obtain rfl : w = w'' := Option.some.inj (hw.symm.trans hleaf)
        have huser : ¬ NotUser w := fun hc => hallow (.inl hc)
        have hbyte := hacc.byte (BitVec.ofNat 64 x)
        have hsub : (BitVec.ofNat 64 x - BitVec.ofNat 64 a).toNat = x - a := by
          rw [userPages] at hx
          rw [BitVec.toNat_sub, BitVec.toNat_ofNat, BitVec.toNat_ofNat]
          omega
        rw [userByte_user hva hw' huser, written, hsub, if_pos (by omega), Option.some_or, toNat_user hx] at hbyte
        rw [if_pos hin, Option.map_some, Option.some.inj hbyte]
      · rw [if_neg hin]
        by_cases huser : NotUser w
        · rw [hacc.guarded _ hva w hw (.inl huser)]
        · have hbyte := hacc.byte (BitVec.ofNat 64 x)
          have hout : written (BitVec.ofNat 64 a) len src (BitVec.ofNat 64 x) = none := by
            rw [written, if_neg]
            rw [userPages] at hx ha
            rw [BitVec.toNat_sub, BitVec.toNat_ofNat, BitVec.toNat_ofNat]
            omega
          rw [userByte_user hva hw' huser, userByte_user hva hw huser, hout, Option.none_or, toNat_user hx] at hbyte
          rw [Option.some.inj hbyte]
  · rw [Cells.write_ne_none, h.mapped x hx]

/-- `copyout()` to addresses that may be written. -/
theorem UserMem.copyout [DecidableEq P] {len : Nat} (h : UserMem s t root ext top sz m)
    (ht : UserTable userPages t root sz ext) (ha : a + len ≤ userPages * 4096)
    (hrange : ∀ x, a ≤ x → x < a + len → m.Writable x) :
    Runs R (copyout root sz (BitVec.ofNat 64 a) src (BitVec.ofNat 64 len)) t fun r u =>
      r = 0 ∧ UserMem s u root ext top sz (m.write a len src) := by
  have hlen : (BitVec.ofNat 64 len).toNat = len := by
    rw [userPages] at ha
    rw [BitVec.toNat_ofNat, Nat.mod_eq_of_lt (by omega)]
  refine (copyoutLoop_spec (BitVec.ofNat 64 len).toNat ht (Nat.le_refl _) (BitVec.isLt _)).mono fun r u hru => ?_
  obtain ⟨k, hk, hacc, hcase⟩ := hru
  rw [hlen] at hk hcase
  simp only [Nat.zero_add] at hacc
  rcases hcase with ⟨hr, rfl, -⟩ | ⟨-, i, hi, hwhy⟩
  · exact ⟨hr, h.accessed ha hrange hacc⟩
  · have hx : a + i < userPages * 4096 := by omega
    have hadd : BitVec.ofNat 64 a + BitVec.ofNat 64 i = BitVec.ofNat 64 (a + i) := (BitVec.ofNat_add ..).symm
    obtain ⟨w, hw, hallow⟩ := h.leaf_writable hx (hrange (a + i) (by omega) (by omega))
    rw [hadd] at hwhy
    have hok : Allowed NotWritable u root (BitVec.ofNat 64 (a + i)) :=
      ⟨user_lt_maxva hx, w, hacc.kept _ (user_lt_maxva hx) w hw, hallow⟩
    exact absurd hwhy (hok.not_blocked hacc)

/-- The page table and all pages it maps go. -/
theorem UserMem.free [DecidableEq P] (h : UserMem s t root ext top sz m) :
    Runs R (procFreepagetable root sz) t fun _ u => Freed s u ext [] := by
  have hpages := pages_le h.size
  refine (procFreepagetable_spec h.space h.low hpages fun v hv hge => h.leaf_eq_none hv hge).mono fun _ u hu => ?_
  refine ⟨hu.kend.trans h.kend, hu.exact, hu.heap, fun f hf => ?_⟩
  rcases hf with ⟨q, hq⟩ | hf
  · rw [hu.mem f (.inl ⟨q, hq⟩), h.kept q f hq]
  · exact absurd hf List.not_mem_nil

section
variable (h : UserMem s t root ext top sz m)
include h

/-- The size changes within its last page. -/
theorem UserMem.resize (hsize : newsz.toNat ≤ userPages * 4096) (hpages : pages newsz = pages sz) :
    UserMem s t root ext top newsz m :=
  { h with
    size := hsize
    mapped := by rw [hpages]; exact h.mapped }

/-- What is left of a page table when only its own pages are known to be as they were. -/
theorem UserMem.transport {Q : Type} {ext' : Q → Option Frame} (hspace : Space userPages u root ext' [])
    (hkend : u.kend = t.kend) (htables : ∀ p f, tables t.mem root p = some f → u.mem f = t.mem f)
    (hleaves : ∀ v f, leafFrames userPages t.mem root v = some f → u.mem f = t.mem f) {s' : Phys}
    (hs : s'.kend = s.kend) (hkept : ∀ q f, ext' q = some f → u.mem f = s'.mem f) :
    UserMem s' u root ext' top sz m := by
  have hleaf := leaf_congr htables
  refine ⟨hspace, ?_, hkend.trans (h.kend.trans hs.symm), hkept, fun va hva hge => ?_, h.size, fun a ha => ?_, h.mapped⟩
  · rw [Low, show tables u.mem root = tables t.mem root from funext (tables_congr htables)]
    exact h.low
  · rw [hleaf, h.top va hva hge]
  · rw [← h.cells a ha, cell, cell, hleaf]
    cases hw : leaf t.mem root (BitVec.ofNat 64 a) with
    | none => rfl
    | some w => rw [Option.map_some, Option.map_some, hleaves _ _ (leafFrames_user ha hw)]

theorem UserMem.rebase {s' : Phys} (hkend : s'.kend = s.kend) (hmem : ∀ q f, ext q = some f → s'.mem f = s.mem f) :
    UserMem s' t root ext top sz m :=
  { h with
    kend := h.kend.trans hkend.symm
    kept := fun q f hq => (h.kept q f hq).trans (hmem q f hq).symm }

/-- A page of others is written. -/
theorem UserMem.writeOther {q : P} (hq : ext q = some f) (x : Nat → UInt8) :
    UserMem { s with mem := update s.mem f x } { t with mem := update t.mem f x } root ext top sz m := by
  obtain ⟨hspace, htables, hleaves⟩ := h.space.writeOther (x := x) hq
  refine h.transport hspace rfl htables hleaves rfl fun q' f' hq' => ?_
  dsimp only
  by_cases hf : f' = f
  · rw [hf, update_self, update_self]
  · rw [update_of_ne hf, update_of_ne hf, h.kept q' f' hq']

theorem UserMem.setPte {q : P} (hq : ext q = some f) (i : Fin 512) (w : BitVec 64) :
    UserMem { s with mem := s.mem.setPte f i w } { t with mem := t.mem.setPte f i w } root ext top sz m := by
  rw [Mem.setPte, Mem.setPte, h.kept q f hq]
  exact h.writeOther hq _

end

/-- **Another page table goes.** It was in use before the page table `root` was made; the places of the pages in use
then take the place of `ext`. -/
theorem UserMem.dropOld {Q : Type} [DecidableEq Q] {old : Frame} {oldsz : BitVec 64} {ext0 : Q → Option Frame}
    (h : UserMem s t root ext top sz m) (hself : ∀ f, (∃ q, ext q = some f) ↔ s.Used f)
    (hold : Space userPages s old ext0 []) (hlow : Low s.mem old) (hsize : pages oldsz ≤ userPages)
    (hrest : ∀ v < userPages, pages oldsz ≤ v → leaf s.mem old (vaOf v) = none) :
    Runs R (procFreepagetable old oldsz) t fun _ u => UserMem s u root ext0 top sz m := by
  -- the pages that were in use are as they were
  have hused : ∀ {f}, s.Used f → t.mem f = s.mem f := fun hf => by
    obtain ⟨q, hq⟩ := (hself _).mpr hf
    exact h.kept q _ hq
  have htables : ∀ p f, tables s.mem old p = some f → t.mem f = s.mem f := fun p f hf => hused (hold.tree.not_free hf)
  have hown : Exact t.Used (Sum.elim (tables s.mem old) (Sum.elim (leafFrames userPages s.mem old)
      (Sum.elim ext0 (Sum.elim (tables t.mem root) (leafFrames userPages t.mem root))))) [] := by
    have hnew : Exact t.Used (Sum.elim (Sum.elim (tables t.mem root) (leafFrames userPages t.mem root)) ext) [] := by
      refine h.space.tree.exact.embed (fun x => (Equiv.sumAssoc ..).symm x) (fun x => ?_) fun x _ _ =>
        ⟨Equiv.sumAssoc _ _ _ x, ?_⟩
      · rcases x with p | v | q <;> rfl
      · rcases x with (p | v) | q <;> rfl
    refine (hnew.replace hold.tree.exact hself).embed
      (Sum.elim (Sum.elim (fun p => .inr (.inr (.inr (.inl p)))) fun v => .inr (.inr (.inr (.inr v))))
        (Sum.elim Sum.inl (Sum.elim (fun v => .inr (.inl v)) fun q => .inr (.inr (.inl q)))))
        (fun x => ?_) fun x _ _ => ?_
    · rcases x with (p | v) | p | v | q <;> rfl
    · rcases x with p | v | q | p | v
      · exact ⟨.inr (.inl p), rfl⟩
      · exact ⟨.inr (.inr (.inl v)), rfl⟩
      · exact ⟨.inr (.inr (.inr q)), rfl⟩
      · exact ⟨.inl (.inl p), rfl⟩
      · exact ⟨.inl (.inr v), rfl⟩
  have hspace := hold.transport ⟨h.space.tree.nodup, h.space.sound.free⟩ h.kend htables hown
  have hlow' : Low t.mem old := by
    rw [Low, show tables t.mem old = tables s.mem old from funext (tables_congr htables)]
    exact hlow
  refine (procFreepagetable_spec hspace hlow' hsize fun v hv hge => ?_).mono fun _ u hu => ?_
  · rw [leaf_congr htables]
    exact hrest v hv hge
  · have htab : ∀ p f, tables t.mem root p = some f → u.mem f = t.mem f := fun p f hf =>
      hu.mem f (.inl ⟨.inr (.inl p), hf⟩)
    refine h.transport (h.space.transport hu.heap hu.kend htab ?_) hu.kend htab (fun v f hf =>
      hu.mem f (.inl ⟨.inr (.inr v), hf⟩))
      rfl fun q f hq => ?_
    · refine hu.exact.embed (Sum.elim (fun q => .inr (.inr q)) (Sum.elim Sum.inl fun v => .inr (.inl v)))
        (fun x => ?_) fun x _ _ => ?_
      · rcases x with q | p | v <;> rfl
      · rcases x with p | v | q
        · exact ⟨.inr (.inl p), rfl⟩
        · exact ⟨.inr (.inr v), rfl⟩
        · exact ⟨.inl q, rfl⟩
    · rw [hu.mem f (.inl ⟨.inl q, hq⟩), hused (hold.not_free_ext hq)]

section
variable [DecidableEq P] {R : VmPanic → Prop}

/-- `uvmalloc()` to any size: there is not enough memory to reach the trapframe. -/
theorem UserMem.uvmalloc (xperm : BitVec 64) (h : UserMem s t root ext top sz m)
    (hperm : (pteR ||| pteU ||| xperm).toNat < 2 ^ 10) (newsz : BitVec 64) :
    Runs R (uvmalloc root sz newsz xperm) t fun r u =>
      (r = (if newsz < sz then sz else newsz) ∧
          UserMem s u root ext top r (m.alloc (pages sz) (pages newsz) (pteR ||| pteU ||| xperm)) ∧
          t.freelist.length ≤ u.freelist.length + 3 * (pages newsz - pages sz)) ∨
        (r = 0 ∧ UserMem s u root ext top sz m ∧ t.freelist.length < 3 * (pages newsz - pages sz)) := by
  by_cases hlt : newsz < sz
  · have hmono := pages_mono (Nat.le_of_lt (BitVec.lt_def.mp hlt))
    unfold Vm.uvmalloc
    rw [if_pos hlt, if_pos hlt, Cells.alloc_of_le hmono]
    exact .pure (.inl ⟨rfl, h, Nat.le_add_right ..⟩)
  · have hle := BitVec.not_lt.mp hlt
    have hroom : pages sz + t.freelist.length < userPages := Nat.lt_of_le_of_lt h.room (by decide)
    rw [if_neg hlt]
    refine (uvmalloc_spec hperm h.space hle h.size (.inr hroom) fun v hge _ hv => h.leaf_eq_none hv hge).mono
      fun r u hu => ?_
    rcases hu with ⟨rfl, hsize, hu, hlen⟩ | ⟨rfl, hu, hlen⟩
    · exact .inl ⟨rfl, h.filled hperm hle hsize hu, hlen⟩
    · exact .inr ⟨rfl, h.restored hu, hlen⟩

end

end

end Xv6.Vm
