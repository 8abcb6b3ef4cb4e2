import Mathlib.Data.List.TakeWhile
import Xv6.Lib.Lines
import Xv6.Lib.Splice
import Xv6.User.Match

/-!
# The lines that `grep` prints

`grep()` of `user/grep.c`, with `strchr()` and `memmove()` of `user/ulib.c`. The buffer is a list of 1024 bytes, and
pointers into it are indices. The file is the list of the bytes that are not yet read; the sizes of the chunks that
`read()` returns are given from outside, so that a theorem for all of them holds for every way to split the file.

* `scanLines` : the inner loop, over the lines in the buffer; `grep` : the outer loop, over the chunks; the result is
  what is written, one list of bytes for each `write()`;
* `grep_returns` : what is printed for any file: the matching lines before the first line of 1023 bytes or more;
* `grep_exact` : all matching lines, just when none is as long.
-/

namespace Xv6.User.Grep

open Fuel (Returns)
open Splice (splice)
open Lines (lines unfinished)

variable {s carry buf data : List UInt8} {m : Nat}

/-- `sizeof(buf)` -/
def bufSize : Nat := 1024

def newline : UInt8 := '\n'.toUInt8

/-- How far from `s` the byte `c` is. -/
def strchr : List UInt8 → UInt8 → Option Nat
  | [], _ => none
  | b :: s, c => if b = 0 then none else if b = c then some 0 else (strchr s c).map (· + 1)

/-- `while (n-- > 0) *dst++ = *src++` -/
def copyUp (buf : List UInt8) (dst src : Nat) : Nat → List UInt8
  | 0 => buf
  | n + 1 => copyUp (buf.set dst (chr buf src)) (dst + 1) (src + 1) n

/-- `while (n-- > 0) *--dst = *--src`, from `dst + n` and `src + n` -/
def copyDown (buf : List UInt8) (dst src : Nat) : Nat → List UInt8
  | 0 => buf
  | n + 1 => copyDown (buf.set (dst + n) (chr buf (src + n))) dst src n

def memmove (buf : List UInt8) (dst src n : Nat) : List UInt8 :=
  if dst < src then copyUp buf dst src n else copyDown buf dst src n

/-- `read()` of at most `n` bytes: what it returns is empty at the end of the file or if nothing is asked for. -/
def read (data : List UInt8) (size n : Nat) : List UInt8 := data.take (min n (max 1 size))

/-- `while ((q = strchr(p, '\n')) != 0)`: the buffer, `p`, and what has been written. -/
def scanLines (pattern : List UInt8) :
    Nat → List UInt8 → Nat → List (List UInt8) → Option (List UInt8 × Nat × List (List UInt8))
  | 0, _, _, _ => none
  | fuel + 1, buf, p, out =>
    match strchr (buf.drop p) newline with
    | none => some (buf, p, out)
    | some k => do
      let q := p + k
      let buf := buf.set q 0
      if ← matchText fuel pattern (buf.drop p) then
        let buf := buf.set q newline
        scanLines pattern fuel buf (q + 1) (out ++ [(buf.drop p).take (q + 1 - p)])
      else scanLines pattern fuel buf (q + 1) out

/-- The outer loop, from `m` bytes in the buffer. -/
def grepLoop (pattern : List UInt8) :
    Nat → List UInt8 → Nat → List UInt8 → (Nat → Nat) → List (List UInt8) → Option (List (List UInt8))
  | 0, _, _, _, _, _ => none
  | fuel + 1, buf, m, data, sizes, out =>
    let got := read data (sizes 0) (bufSize - m - 1)
    if got = [] then some out
    else do
      let buf := splice buf m got
      let m := m + got.length
      let r ← scanLines pattern fuel (buf.set m 0) 0 out
      let data := data.drop got.length
      let sizes := fun i => sizes (i + 1)
      if 0 < m then grepLoop pattern fuel (memmove r.1 0 r.2.1 (m - r.2.1)) (m - r.2.1) data sizes r.2.2
      else grepLoop pattern fuel r.1 m data sizes r.2.2

/-- `grep()`, with the buffer as it was left before. -/
def grep (fuel : Nat) (pattern buf data : List UInt8) (sizes : Nat → Nat) : Option (List (List UInt8)) :=
  grepLoop pattern fuel buf 0 data sizes []

/-- The lines that match, with their newlines. -/
def printed (pattern : List UInt8) (ls : List (List UInt8)) : List (List UInt8) :=
  (ls.filter fun line => Accepts (cstr pattern) line).map fun line => line ++ [newline]

/-! ## The functions of the library -/

theorem strchr_none {c : UInt8} (h0 : 0 ∉ s) (hc : c ∉ s) (t : List UInt8) : strchr (s ++ 0 :: t) c = none := by
  induction s with
  | nil => simp [strchr]
  | cons b s ih =>
    rw [List.mem_cons, not_or] at h0 hc
    rw [List.cons_append, strchr, if_neg (Ne.symm h0.1), if_neg (Ne.symm hc.1), ih h0.2 hc.2]
    rfl

theorem strchr_some {c : UInt8} (h0 : 0 ∉ s) (hc : c ∉ s) (hne : c ≠ 0) (t : List UInt8) :
    strchr (s ++ c :: t) c = some s.length := by
  induction s with
  | nil => simp [strchr, hne]
  | cons b s ih =>
    rw [List.mem_cons, not_or] at h0 hc
    rw [List.cons_append, strchr, if_neg (Ne.symm h0.1), if_neg (Ne.symm hc.1), ih h0.2 hc.2]
    rfl

theorem read_append (data : List UInt8) (size n : Nat) :
    read data size n ++ data.drop (read data size n).length = data :=
  List.prefix_iff_eq_append.mp (List.take_prefix _ _)

theorem length_read_le (data : List UInt8) (size n : Nat) : (read data size n).length ≤ n := by
  rw [read, List.length_take]
  omega

section Memmove
variable {buf : List UInt8} {dst src n : Nat}

theorem chr_eq {i : Nat} (hi : i < buf.length) : some (chr buf i) = buf[i]? := by
  rw [chr, List.getD_eq_getElem?_getD, List.getElem?_eq_getElem hi]
  rfl

theorem copyUp_getElem? (hlt : dst < src) (hle : src + n ≤ buf.length) (i : Nat) :
    (copyUp buf dst src n)[i]? = if dst ≤ i ∧ i < dst + n then buf[src + (i - dst)]? else buf[i]? := by
  induction n generalizing buf dst src with
  | zero => rw [copyUp, if_neg (by omega)]
  | succ n ih =>
    rw [copyUp, ih (by omega) (by simpa using by omega)]
    by_cases hi : i = dst
    · rw [if_neg (by omega), if_pos (by omega), hi, List.getElem?_set_self (by omega), chr_eq (by omega), Nat.sub_self,
        Nat.add_zero]
    · rw [List.getElem?_set_ne (Ne.symm hi), List.getElem?_set_ne (by omega)]
      by_cases hin : dst + 1 ≤ i ∧ i < dst + 1 + n
      · rw [if_pos hin, if_pos (by omega), show src + 1 + (i - (dst + 1)) = src + (i - dst) by omega]
      · rw [if_neg hin, if_neg (by omega)]

theorem copyDown_getElem? (hle : src ≤ dst) (hlen : dst + n ≤ buf.length) (i : Nat) :
    (copyDown buf dst src n)[i]? = if dst ≤ i ∧ i < dst + n then buf[src + (i - dst)]? else buf[i]? := by
  induction n generalizing buf with
  | zero => rw [copyDown, if_neg (by omega)]
  | succ n ih =>
    rw [copyDown, ih (by simpa using by omega)]
    by_cases hi : i = dst + n
    · rw [if_neg (by omega), if_pos (by omega), hi, List.getElem?_set_self (by omega), chr_eq (by omega),
        Nat.add_sub_cancel_left]
    · by_cases hin : dst ≤ i ∧ i < dst + n
      · rw [if_pos hin, if_pos (by omega), List.getElem?_set_ne (by omega)]
      · rw [if_neg hin, if_neg (by omega), List.getElem?_set_ne (Ne.symm hi)]

/-- `memmove()` copies although the ranges overlap. -/
theorem memmove_getElem? (hsrc : src + n ≤ buf.length) (hdst : dst + n ≤ buf.length) (i : Nat) :
    (memmove buf dst src n)[i]? = if dst ≤ i ∧ i < dst + n then buf[src + (i - dst)]? else buf[i]? := by
  rw [memmove]
  split
  · exact copyUp_getElem? ‹_› hsrc i
  · exact copyDown_getElem? (by omega) hdst i

theorem length_copyUp (buf : List UInt8) (dst src n : Nat) : (copyUp buf dst src n).length = buf.length := by
  induction n generalizing buf dst src with
  | zero => rfl
  | succ n ih => rw [copyUp, ih, List.length_set]

theorem length_copyDown (buf : List UInt8) (dst src n : Nat) : (copyDown buf dst src n).length = buf.length := by
  induction n generalizing buf with
  | zero => rfl
  | succ n ih => rw [copyDown, ih, List.length_set]

theorem length_memmove (buf : List UInt8) (dst src n : Nat) : (memmove buf dst src n).length = buf.length := by
  rw [memmove]
  split
  · exact length_copyUp ..
  · exact length_copyDown ..

/-- What is moved to the start of the buffer. -/
theorem take_memmove {s t : List UInt8} (hs : buf.drop src = s ++ t) :
    (memmove buf 0 src s.length).take s.length = s := by
  have hlen : buf.length - src = s.length + t.length := by rw [← List.length_drop, hs, List.length_append]
  by_cases hnil : s = []
  · rw [hnil]
    rfl
  · have hpos := List.length_pos_iff.mpr hnil
    apply List.ext_getElem?
    intro i
    by_cases hi : i < s.length
    · rw [List.getElem?_take_of_lt hi, memmove_getElem? (by omega) (by omega), if_pos (by omega),
        ← List.getElem?_drop, hs, Nat.sub_zero, List.getElem?_append_left hi]
    · rw [List.getElem?_eq_none (by rw [List.length_take]; omega), List.getElem?_eq_none (by omega)]

end Memmove

/-! ## One buffer -/

theorem printed_append (pattern : List UInt8) (ls ls' : List (List UInt8)) :
    printed pattern (ls ++ ls') = printed pattern ls ++ printed pattern ls' := by
  rw [printed, List.filter_append, List.map_append, printed, printed]

section
variable {buf line s t : List UInt8} {p : Nat}

theorem drop_set_line {b : UInt8} (hbuf : buf.drop p = line ++ b :: s) (c : UInt8) :
    (buf.set (p + line.length) c).drop p = line ++ c :: s := by
  rw [List.drop_set, if_neg (by omega), hbuf, Nat.add_sub_cancel_left,
  List.set_append_right _ _ (Nat.le_refl _), Nat.sub_self]
  rfl

theorem drop_behind {b : UInt8} (hbuf : buf.drop p = line ++ b :: s) : buf.drop (p + line.length + 1) = s := by
  rw [Nat.add_assoc, ← List.drop_drop, hbuf]
  simp

/-- A line in the buffer: it is cut off with a NUL for the matcher, and restored if it is written. -/
theorem scanLines_line (pattern : List UInt8) (h0 : 0 ∉ line) (hline : newline ∉ line)
    (hbuf : buf.drop p = line ++ newline :: s) (out : List (List UInt8)) :
    ∃ buf' : List UInt8, buf'.length = buf.length ∧ buf'.drop (p + line.length + 1) = s ∧
      ∀ r, Returns (fun fuel => scanLines pattern fuel buf' (p + line.length + 1) (out ++ printed pattern [line])) r →
        Returns (fun fuel => scanLines pattern fuel buf p out) r := by
  have hstrchr : strchr (buf.drop p) newline = some line.length := by
    rw [hbuf]
    exact strchr_some h0 hline (by decide) s
  have hcut := drop_set_line hbuf 0
  have hmatch := matchText_returns pattern ((buf.set (p + line.length) 0).drop p)
  rw [hcut, cstr_append_nul h0] at hmatch
  have hturn : ∀ fuel, scanLines pattern (fuel + 1) buf p out =
      (matchText fuel pattern (line ++ 0 :: s)).bind fun r =>
        if r then
          scanLines pattern fuel ((buf.set (p + line.length) 0).set (p + line.length) newline) (p + line.length + 1)
            (out ++ [line ++ [newline]])
        else scanLines pattern fuel (buf.set (p + line.length) 0) (p + line.length + 1) out := by
    intro fuel
    rw [scanLines, hstrchr]
    simp only [hcut, drop_set_line hcut, Option.bind_eq_bind]
    rw [show p + line.length + 1 - p = (line ++ [newline]).length by simp; omega,
      show line ++ newline :: s = (line ++ [newline]) ++ s by simp, List.take_left]
  by_cases hacc : Accepts (cstr pattern) line
  · have hprinted : printed pattern [line] = [line ++ [newline]] := by simp [printed, hacc]
    rw [(accepts_iff _ _).mpr hacc] at hmatch
    refine ⟨(buf.set (p + line.length) 0).set (p + line.length) newline,
    by simp, drop_behind (drop_set_line hcut newline), ?_⟩
    intro r hr
    rw [hprinted] at hr
    exact (hmatch.next hr).turn hturn
  · have hprinted : printed pattern [line] = [] := by simp [printed, hacc]
    rw [Bool.eq_false_iff.mpr (mt (accepts_iff _ _).mp hacc)] at hmatch
    refine ⟨buf.set (p + line.length) 0, by simp, drop_behind hcut, ?_⟩
    intro r hr
    rw [hprinted, List.append_nil] at hr
    exact (hmatch.next hr).turn hturn

/-- The lines in the buffer: those that match are written, and `p` is where the unfinished one begins. -/
theorem scanLines_returns (pattern : List UInt8) (h0 : 0 ∉ s) (hbuf : buf.drop p = s ++ 0 :: t)
    (out : List (List UInt8)) :
    ∃ buf' p', Returns (fun fuel => scanLines pattern fuel buf p out) (buf', p',
      out ++ printed pattern (lines newline s)) ∧
      buf'.length = buf.length ∧ buf'.drop p' = unfinished newline s ++ 0 :: t ∧
      p' + (unfinished newline s).length = p + s.length := by
  induction s using Lines.cut_induction newline generalizing buf p out with
  | hlast s hs =>
    rw [Lines.lines_notMem hs, Lines.unfinished_notMem hs]
    refine ⟨buf, p, (Returns.const _).turn fun fuel => ?_, rfl, hbuf, rfl⟩
    rw [scanLines, hbuf, strchr_none h0 hs]
    simp [printed]
  | hline line s hline ih =>
    rw [List.mem_append, List.mem_cons, not_or, not_or] at h0
    rw [List.append_assoc] at hbuf
    obtain ⟨buf₁, hlen₁, hdrop₁, hback⟩ := scanLines_line pattern h0.1 hline hbuf out
    obtain ⟨buf', p', hret, hlen, hdrop, hp⟩ := ih h0.2.2 hdrop₁ (out ++ printed pattern [line])
    rw [Lines.lines_line hline, Lines.unfinished_line hline]
    rw [List.append_assoc, ← printed_append] at hret
    refine ⟨buf', p', hback _ hret, hlen.trans hlen₁, hdrop, ?_⟩
    rw [hp, List.length_append, List.length_cons]
    omega

end

/-! ## The file -/

/-- The lines that fit into the buffer, up to the first that does not. -/
def reached (data : List UInt8) : List (List UInt8) :=
  (lines newline data).takeWhile fun line => line.length + 1 < bufSize

/-- What the buffer holds, from its start, is the beginning of a line. -/
structure Carry (buf : List UInt8) (m : Nat) (carry : List UInt8) : Prop where
  size : buf.length = bufSize
  held : buf.take m = carry
  len : carry.length = m
  room : m < bufSize
  text : 0 ∉ carry
  line : newline ∉ carry

/-- A line that fills the buffer is not reached. -/
theorem reached_full (hline : newline ∉ carry) (hfull : bufSize ≤ carry.length + 1) (data : List UInt8) :
    reached (carry ++ data) = [] := by
  rw [reached]
  obtain h | ⟨line, t, h, rfl⟩ := Lines.cut_cases newline data
  · rw [Lines.lines_notMem (by simp [hline, h])]
    rfl
  · rw [← List.append_assoc, Lines.lines_line (by simp [hline, h]), List.takeWhile_cons_of_neg]
    rw [List.length_append, decide_eq_true_eq]
    omega

/-- The lines that end in one buffer are all reached. -/
theorem reached_append (hs : s.length < bufSize) (data : List UInt8) :
    reached (s ++ data) = lines newline s ++ reached (unfinished newline s ++ data) := by
  rw [reached, Lines.lines_append, List.takeWhile_append_of_pos, reached]
  intro line hline
  have hlt := Lines.length_of_mem_lines hline
  exact decide_eq_true (by omega)

/-- A chunk goes behind what the buffer holds, with a NUL behind it. -/
theorem Carry.chunk (hc : Carry buf m carry) (got : List UInt8) (hgot : m + got.length < bufSize) :
    ∃ t, (splice buf m got).set (m + got.length) 0 = carry ++ got ++ 0 :: t ∧
      ((splice buf m got).set (m + got.length) 0).length = bufSize := by
  have hsize := hc.size
  have htail : buf.drop (m + got.length) ≠ [] := by
    rw [Ne, List.drop_eq_nil_iff]
    omega
  obtain ⟨b, t, hcons⟩ := List.exists_cons_of_ne_nil htail
  have hsplice : splice buf m got = carry ++ got ++ b :: t := by rw [splice, hc.held, hcons]
  refine ⟨t, ?_, ?_⟩
  · have hlen : (carry ++ got).length = m + got.length := by rw [List.length_append, hc.len]
    rw [hsplice, ← hlen, List.set_append_right _ _ (Nat.le_refl _), Nat.sub_self]
    rfl
  · rw [List.length_set, splice, List.length_append, List.length_append, List.length_take, List.length_drop]
    omega

/-- What is left of a line is moved to the start of the buffer. -/
theorem carry_memmove {t : List UInt8} {p : Nat} (hsize : buf.length = bufSize)
    (hdrop : buf.drop p = unfinished newline s ++ t) (h0 : 0 ∉ s) (hroom : s.length < bufSize)
    (hp : p + (unfinished newline s).length = s.length) :
    Carry (memmove buf 0 p (s.length - p)) (s.length - p) (unfinished newline s) := by
  have hlen : s.length - p = (unfinished newline s).length := by omega
  refine ⟨(length_memmove ..).trans hsize, ?_, hlen.symm, by omega, ?_, Lines.notMem_unfinished newline s⟩
  · rw [hlen]
    exact take_memmove hdrop
  · exact fun h => h0 (Lines.mem_of_mem_unfinished h)

/-- One turn with a chunk. -/
theorem grepLoop_chunk (pattern buf : List UInt8) {got : List UInt8} {sizes : Nat → Nat}
    (hgot : read data (sizes 0) (bufSize - m - 1) = got) (hne : got ≠ []) (out : List (List UInt8)) (fuel : Nat) :
    grepLoop pattern (fuel + 1) buf m data sizes out =
      (scanLines pattern fuel ((splice buf m got).set (m + got.length) 0) 0 out).bind fun r =>
        grepLoop pattern fuel (memmove r.1 0 r.2.1 (m + got.length - r.2.1)) (m + got.length - r.2.1)
          (data.drop got.length) (fun i => sizes (i + 1)) r.2.2 := by
  have hpos : 0 < m + got.length := Nat.add_pos_right m (List.length_pos_iff.mpr hne)
  rw [grepLoop, hgot, if_neg hne]
  simp only [if_pos hpos, Option.bind_eq_bind]

/-- **What `grep` prints.** However the file is split into chunks, it is the matching lines before the first line that
does not fit into the buffer. -/
theorem grepLoop_returns (pattern : List UInt8) (hc : Carry buf m carry) (h0 : 0 ∉ data) (sizes : Nat → Nat)
    (out : List (List UInt8)) :
    Returns (fun fuel => grepLoop pattern fuel buf m data sizes out) (out ++
      printed pattern (reached (carry ++ data))) := by
  -- each chunk takes bytes off the file
  induction hn : data.length using Nat.strong_induction_on generalizing buf carry data m sizes out with
  | _ n ih =>
    subst hn
    have hroom := hc.room
    by_cases hend : read data (sizes 0) (bufSize - m - 1) = []
    · have hnone : reached (carry ++ data) = [] := by
        rw [read, List.take_eq_nil_iff] at hend
        rcases hend with hzero | rfl
        · have hlen := hc.len
          exact reached_full hc.line (by omega) data
        · rw [List.append_nil, reached, Lines.lines_notMem hc.line]
          rfl
      rw [hnone]
      refine (Returns.const _).turn fun fuel => ?_
      rw [grepLoop]
      simp [hend, printed]
    · have hsplit := read_append data (sizes 0) (bufSize - m - 1)
      have hle := length_read_le data (sizes 0) (bufSize - m - 1)
      have hturn := grepLoop_chunk pattern buf rfl hend out
      generalize read data (sizes 0) (bufSize - m - 1) = got at hend hsplit hle hturn
      have hpos := List.length_pos_iff.mpr hend
      have hless : (data.drop got.length).length < data.length := by
        have hsum := congrArg List.length hsplit
        rw [List.length_append] at hsum
        omega
      have hlen : (carry ++ got).length = m + got.length := by rw [List.length_append, hc.len]
      have h0got : 0 ∉ carry ++ got := by
        rw [List.mem_append, not_or]
        exact ⟨hc.text, fun h => h0 (hsplit ▸ List.mem_append_left _ h)⟩
      obtain ⟨t, hbuf, hsize⟩ := hc.chunk got (by omega)
      obtain ⟨buf', p, hscan, hlen', hdrop, hp⟩ := scanLines_returns (p := 0) pattern h0got hbuf out
      have hnext := ih _ hless (carry_memmove (hlen'.trans hsize) hdrop h0got (by omega) (by omega))
        (fun h => h0 (List.mem_of_mem_drop h)) (fun i => sizes (i + 1))
        (out ++ printed pattern (lines newline (carry ++ got))) rfl
      rw [List.append_assoc, ← printed_append, ← reached_append (by omega), List.append_assoc, hsplit, hlen] at hnext
      exact (hscan.next hnext).turn hturn

/-- For any file: the matching lines before the first that does not fit into the buffer. -/
theorem grep_returns (pattern : List UInt8) (hbuf : buf.length = bufSize) (h0 : 0 ∉ data) (sizes : Nat → Nat) :
    Returns (fun fuel => grep fuel pattern buf data sizes) (printed pattern (reached data)) := by
  have hempty : Carry buf 0 [] := ⟨hbuf, rfl, rfl, by decide, List.not_mem_nil, List.not_mem_nil⟩
  simpa [grep] using grepLoop_returns pattern hempty h0 sizes []

/-- The empty pattern accepts every line. -/
theorem printed_empty (ls : List (List UInt8)) : printed [] ls = ls.map fun line => line ++ [newline] := by
  have hall : ∀ line : List UInt8, Accepts (cstr []) line := fun line => ⟨[], [], line, rfl, fun _ => rfl, .nil line⟩
  rw [printed, List.filter_eq_self.mpr fun line _ => decide_eq_true (hall line)]

/-- **`grep` prints exactly the matching lines** of a file just when its lines, each with its newline, have at most 1023
bytes: each once, complete and in order, for every pattern and however the file is split into chunks. -/
theorem grep_exact (data : List UInt8) (h0 : 0 ∉ data) :
    (∀ (pattern buf : List UInt8) (sizes : Nat → Nat), buf.length = bufSize →
      Returns (fun fuel => grep fuel pattern buf data sizes) (printed pattern (lines newline data))) ↔
    ∀ line ∈ lines newline data, line.length + 1 ≤ 1023 := by
  constructor
  · intro hexact line hline
    have hbuf : (List.replicate bufSize (0 : UInt8)).length = bufSize := List.length_replicate
    have hsame := (grep_returns [] hbuf h0 fun _ => 0).unique (hexact [] _ (fun _ => 0) hbuf)
    rw [printed_empty, printed_empty] at hsame
    have hall : reached data = lines newline data :=
      List.map_injective_iff.mpr (List.append_left_injective [newline]) hsame
    exact Nat.le_of_lt_succ (of_decide_eq_true (List.takeWhile_eq_self_iff.mp hall line hline))
  · intro hfit pattern buf sizes hbuf
    have hall : reached data = lines newline data :=
      List.takeWhile_eq_self_iff.mpr fun line hline => decide_eq_true (Nat.lt_succ_of_le (hfit line hline))
    rw [← hall]
    exact grep_returns pattern hbuf h0 sizes

/-- Two lines, in chunks of one byte. -/
theorem grep_exact_twoLines :
    Returns (fun fuel => grep fuel ['b'.toUInt8] (List.replicate bufSize 0) (['a', '\n', 'b', '\n'].map Char.toUInt8)
      fun _ => 1) [['b', '\n'].map Char.toUInt8] :=
  (grep_exact (['a', '\n', 'b', '\n'].map Char.toUInt8) (by decide)).mpr (by decide) ['b'.toUInt8] _ _
    List.length_replicate

/-- A line of 1023 bytes, and a short one. -/
def longFile : List UInt8 := List.replicate 1023 'a'.toUInt8 ++ newline :: ['b'.toUInt8, newline]

/-- A line that fills the buffer ends the run: the matching line behind it is not printed. -/
theorem grep_misses_line :
    Returns (fun fuel => grep fuel ['b'.toUInt8] (List.replicate bufSize 0) longFile fun _ => bufSize) [] ∧
      ['b'.toUInt8, newline] ∈ printed ['b'.toUInt8] (lines newline longFile) := by
  have hlong : newline ∉ List.replicate 1023 'a'.toUInt8 := fun h => absurd (List.eq_of_mem_replicate h) (by decide)
  have h0 : 0 ∉ longFile := by
    rw [longFile, List.mem_append, not_or]
    exact ⟨fun h => absurd (List.eq_of_mem_replicate h) (by decide), by decide⟩
  constructor
  · have hrun := grep_returns ['b'.toUInt8] (List.length_replicate (n := bufSize) (a := (0 : UInt8))) h0
      fun _ => bufSize
    rwa [longFile, reached_full hlong (by rw [List.length_replicate]; decide)] at hrun
  · rw [longFile, Lines.lines_line hlong, printed]
    refine List.mem_map.mpr ⟨['b'.toUInt8], List.mem_filter.mpr ⟨?_, by decide⟩, rfl⟩
    exact List.mem_cons_of_mem _ (by decide)

end Xv6.User.Grep
