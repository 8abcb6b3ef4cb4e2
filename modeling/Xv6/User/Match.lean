import Mathlib.Data.List.Basic
import Xv6.Lib.Fuel

/-!
# The matcher of `grep`

`match()`, `matchhere()` and `matchstar()` of `user/grep.c`. A string is the memory from a pointer on, a list of bytes,
with NUL behind its end; it stands for its bytes up to the first NUL. The functions are given a number of turns.

* `matchhere`, `matchstar`, `matchText` : the functions of the source; `matchText` is `match()`;
* `items`, `Lang`, `Accepts` : the pattern language: a pattern is a list of items, read from left to right, and an item
  takes bytes of the text;
* `here`, `accepts` : the same, decided by recursion over the items;
* `matchText_iff` : the matcher ends and decides the pattern language.
-/

namespace Xv6.User.Grep

open Fuel (Returns)

def chr (s : List UInt8) (i : Nat) : UInt8 := s.getD i 0

/-- The bytes of a string, up to its NUL. -/
def cstr (s : List UInt8) : List UInt8 := s.takeWhile fun c => c ≠ 0

def caret : UInt8 := '^'.toUInt8
def dollar : UInt8 := '$'.toUInt8
def dot : UInt8 := '.'.toUInt8
def asterisk : UInt8 := '*'.toUInt8

mutual

def matchhere : Nat → List UInt8 → List UInt8 → Option Bool
  | 0, _, _ => none
  | fuel + 1, re, text =>
    if chr re 0 = 0 then some true
    else if chr re 1 = asterisk then matchstar fuel (chr re 0).toNat (re.drop 2) text
    else if chr re 0 = dollar ∧ chr re 1 = 0 then some (chr text 0 = 0)
    else if chr text 0 ≠ 0 ∧ (chr re 0 = dot ∨ chr re 0 = chr text 0) then matchhere fuel (re.drop 1) (text.drop 1)
    else some false

def matchstar : Nat → Int → List UInt8 → List UInt8 → Option Bool
  | 0, _, _, _ => none
  | fuel + 1, c, re, text => do
    if ← matchhere fuel re text then some true
    else if chr text 0 ≠ 0 ∧ ((chr text 0).toNat = c ∨ c = dot.toNat) then matchstar fuel c re (text.drop 1)
    else some false

end

/-- The loop of `match()`. -/
def matchFrom : Nat → List UInt8 → List UInt8 → Option Bool
  | 0, _, _ => none
  | fuel + 1, re, text => do
    if ← matchhere fuel re text then some true
    else if chr text 0 ≠ 0 then matchFrom fuel re (text.drop 1)
    else some false

/-- `match()` -/
def matchText (fuel : Nat) (re text : List UInt8) : Option Bool :=
  if chr re 0 = caret then matchhere fuel (re.drop 1) text else matchFrom fuel re text

/-! ## The pattern language -/

inductive Item
  | one (c : UInt8)
  | star (c : UInt8)
  | eol
deriving DecidableEq

/-- What a pattern is read as: a character and a star, a `$` at the end, or a character alone. -/
def items : List UInt8 → List Item
  | [] => []
  | [c] => if c = dollar then [.eol] else [.one c]
  | c :: d :: re => if d = asterisk then .star c :: items re else .one c :: items (d :: re)

/-- The character of an item takes a byte of the text. -/
def admits (c b : UInt8) : Bool := c = dot ∨ c = b

/-- The items take the bytes `sub`, where `post` is left of the text. -/
inductive Lang : List Item → List UInt8 → List UInt8 → Prop
  | nil (post) : Lang [] [] post
  | one {c b is sub post} : admits c b → Lang is sub post → Lang (.one c :: is) (b :: sub) post
  | star {c is sub post} (run : List UInt8) : (∀ b ∈ run, admits c b) → Lang is sub post →
      Lang (.star c :: is) (run ++ sub) post
  | eol {is} : Lang is [] [] → Lang (.eol :: is) [] []

/-- Some part of the text is in the language of the pattern: a prefix of it if the pattern begins with `^`. -/
def Accepts (re text : List UInt8) : Prop :=
  ∃ pre sub post, text = pre ++ sub ++ post ∧ (re.head? = some caret → pre = []) ∧
    Lang (items (if re.head? = some caret then re.tail else re)) sub post

/-! ## The language, decided -/

/-- Bytes of `p` are skipped, and the rest is one of `k`. -/
def reps (k : List UInt8 → Bool) (p : UInt8 → Bool) : List UInt8 → Bool
  | [] => k []
  | b :: text => k (b :: text) || (p b && reps k p text)

/-- The items take a prefix of the text. -/
def here : List Item → List UInt8 → Bool
  | [], _ => true
  | .one _ :: _, [] => false
  | .one c :: is, b :: text => admits c b && here is text
  | .star c :: is, text => reps (here is) (admits c) text
  | .eol :: is, text => text.isEmpty && here is text

def accepts (re text : List UInt8) : Bool :=
  if re.head? = some caret then here (items re.tail) text else reps (here (items re)) (fun _ => true) text

theorem reps_iff (k : List UInt8 → Bool) (p : UInt8 → Bool) (text : List UInt8) :
    reps k p text ↔ ∃ run rest, text = run ++ rest ∧ (∀ b ∈ run, p b) ∧ k rest := by
  induction text with
  | nil => simp [reps]
  | cons b text ih =>
    rw [reps, Bool.or_eq_true, Bool.and_eq_true, ih]
    constructor
    · rintro (hk | ⟨hb, run, rest, rfl, hrun, hk⟩)
      · exact ⟨[], b :: text, rfl, by simp, hk⟩
      · exact ⟨b :: run, rest, rfl, by simpa using ⟨hb, hrun⟩, hk⟩
    · rintro ⟨run, rest, heq, hrun, hk⟩
      cases run with
      | nil => exact .inl (by simpa [heq] using hk)
      | cons b' run =>
        obtain ⟨rfl, rfl⟩ := List.cons.inj heq
        rw [List.forall_mem_cons] at hrun
        exact .inr ⟨hrun.1, run, rest, rfl, hrun.2, hk⟩

theorem here_iff (is : List Item) (text : List UInt8) :
    here is text ↔ ∃ sub post, text = sub ++ post ∧ Lang is sub post := by
  induction is generalizing text with
  | nil => simpa [here] using ⟨[], text, rfl, Lang.nil text⟩
  | cons i is ih =>
    cases i with
    | one c =>
      cases text with
      | nil =>
        simp only [here, Bool.false_eq_true, false_iff]
        rintro ⟨sub, post, heq, hlang⟩
        cases hlang
        simp at heq
      | cons b text =>
        rw [here, Bool.and_eq_true, ih]
        constructor
        · rintro ⟨hb, sub, post, rfl, hlang⟩
          exact ⟨b :: sub, post, rfl, .one hb hlang⟩
        · rintro ⟨sub, post, heq, hlang⟩
          cases hlang with
          | one hb hlang =>
            obtain ⟨rfl, rfl⟩ := List.cons.inj heq
            exact ⟨hb, _, _, rfl, hlang⟩
    | star c =>
      rw [here, reps_iff]
      constructor
      · rintro ⟨run, rest, rfl, hrun, hk⟩
        obtain ⟨sub, post, rfl, hlang⟩ := (ih rest).mp hk
        exact ⟨run ++ sub, post, by rw [List.append_assoc], .star run hrun hlang⟩
      · rintro ⟨sub, post, rfl, hlang⟩
        cases hlang with
        | star run hrun hlang =>
          exact ⟨run, _, List.append_assoc .., hrun, (ih _).mpr ⟨_, _, rfl, hlang⟩⟩
    | eol =>
      rw [here, Bool.and_eq_true, ih, List.isEmpty_iff]
      constructor
      · rintro ⟨rfl, sub, post, heq, hlang⟩
        obtain ⟨rfl, rfl⟩ := List.append_eq_nil_iff.mp heq.symm
        exact ⟨[], [], rfl, .eol hlang⟩
      · rintro ⟨sub, post, rfl, hlang⟩
        cases hlang with
        | eol hlang => exact ⟨rfl, [], [], rfl, hlang⟩

theorem accepts_iff (re text : List UInt8) : accepts re text ↔ Accepts re text := by
  by_cases hre : re.head? = some caret
  · simp only [accepts, Accepts, if_pos hre, here_iff]
    constructor
    · rintro ⟨sub, post, rfl, hlang⟩
      exact ⟨[], sub, post, rfl, fun _ => rfl, hlang⟩
    · rintro ⟨pre, sub, post, rfl, hpre, hlang⟩
      exact ⟨sub, post, by rw [hpre hre, List.nil_append], hlang⟩
  · simp only [accepts, Accepts, if_neg hre, reps_iff, here_iff]
    constructor
    · rintro ⟨pre, rest, rfl, -, sub, post, rfl, hlang⟩
      exact ⟨pre, sub, post, (List.append_assoc ..).symm, fun h => absurd h hre, hlang⟩
    · rintro ⟨pre, sub, post, rfl, -, hlang⟩
      exact ⟨pre, sub ++ post, List.append_assoc .., fun _ _ => trivial, sub, post, rfl, hlang⟩

instance (re text : List UInt8) : Decidable (Accepts re text) := decidable_of_iff _ (accepts_iff re text)

/-! ## Strings -/

/-- A string is at its NUL, or has a first byte. -/
theorem cstr_cases (s : List UInt8) :
    (chr s 0 = 0 ∧ cstr s = []) ∨ ∃ c t, c ≠ 0 ∧ s = c :: t ∧ cstr s = c :: cstr t := by
  cases s with
  | nil => exact .inl ⟨rfl, rfl⟩
  | cons c t =>
    by_cases hc : c = 0
    · exact .inl ⟨hc, List.takeWhile_cons_of_neg (by simpa using hc)⟩
    · exact .inr ⟨c, t, hc, rfl, List.takeWhile_cons_of_pos (by simpa using hc)⟩

@[simp] theorem cstr_cons {c : UInt8} (hc : c ≠ 0) (t : List UInt8) : cstr (c :: t) = c :: cstr t :=
  List.takeWhile_cons_of_pos (by simpa using hc)

theorem cstr_append_nul {s : List UInt8} (hs : 0 ∉ s) (t : List UInt8) : cstr (s ++ 0 :: t) = s := by
  rw [cstr, List.takeWhile_append_of_pos fun c hc => by simpa using fun h : c = 0 => hs (h ▸ hc)]
  simp

/-! ## The matcher decides the language -/

/-- The loops of `match()` and `matchstar()`: bytes are skipped while `p` holds, until the rest of the pattern matches.
-/
theorem skip_returns (call : Nat → List UInt8 → Option Bool) {re : List UInt8} {p : UInt8 → Bool}
    {k : List UInt8 → Bool}
    (hturn : ∀ fuel text, call (fuel + 1) text = (matchhere fuel re text).bind fun r => if r then some true
      else if chr text 0 ≠ 0 ∧ p (chr text 0) then call fuel (text.drop 1) else some false)
    (hre : ∀ text, Returns (fun fuel => matchhere fuel re text) (k (cstr text))) (text : List UInt8) :
    Returns (fun fuel => call fuel text) (reps k p (cstr text)) := by
  have hstop : ∀ text, chr text 0 = 0 → cstr text = [] →
      Returns (fun fuel => call fuel text) (reps k p (cstr text)) := by
    intro text h0 hnil
    have hend : ¬(chr text 0 ≠ 0 ∧ p (chr text 0) = true) := fun h => h.1 h0
    refine ((hre text).next ?_).turn (hturn · text)
    rw [hnil, reps]
    simp only [if_neg hend]
    cases k [] with
    | true => exact Returns.const true
    | false => exact Returns.const false
  induction text with
  | nil => exact hstop [] rfl rfl
  | cons c t ih =>
    obtain ⟨h0, hnil⟩ | ⟨c, t, hc, heq, hcons⟩ := cstr_cases (c :: t)
    · exact hstop _ h0 hnil
    · obtain ⟨rfl, rfl⟩ := List.cons.inj heq
      refine ((hre (c :: t)).next ?_).turn (hturn · (c :: t))
      rw [hcons, reps]
      cases hk : k (c :: cstr t) with
      | true => exact Returns.const true
      | false =>
        cases hp : p c with
        | true => simpa [chr, hc, hp] using ih
        | false => simpa [chr, hc, hp] using Returns.const false

theorem matchstar_returns {re : List UInt8} {k : List UInt8 → Bool}
    (hre : ∀ text, Returns (fun fuel => matchhere fuel re text) (k (cstr text))) (c : Int) (text : List UInt8) :
    Returns (fun fuel => matchstar fuel c re text) (reps k (fun b => b.toNat = c ∨ c = dot.toNat) (cstr text)) := by
  refine skip_returns (fun fuel text => matchstar fuel c re text) (fun fuel text => ?_) hre text
  rw [matchstar]
  simp

theorem admits_toNat (c b : UInt8) :
    decide (((b.toNat : Int) = c.toNat) ∨ (c.toNat : Int) = dot.toNat) = admits c b := by
  have hb : ((b.toNat : Int) = c.toNat) ↔ c = b := by
    rw [Int.ofNat_inj, UInt8.toNat_inj, eq_comm]
  have hdot : ((c.toNat : Int) = dot.toNat) ↔ c = dot := by rw [Int.ofNat_inj, UInt8.toNat_inj]
  simp only [admits, hb, hdot, or_comm]

section
variable {c : UInt8} {re : List UInt8}

/-- One turn, with a byte of the pattern. -/
theorem matchhere_cons (fuel : Nat) (hc : c ≠ 0) (text : List UInt8) :
    matchhere (fuel + 1) (c :: re) text =
      if chr re 0 = asterisk then matchstar fuel c.toNat (re.drop 1) text
      else if c = dollar ∧ chr re 0 = 0 then some (chr text 0 = 0)
      else if chr text 0 ≠ 0 ∧ (c = dot ∨ c = chr text 0) then matchhere fuel re (text.drop 1)
      else some false := by
  rw [matchhere]
  exact if_neg hc

theorem matchhere_nul (h0 : chr re 0 = 0) (text : List UInt8) : Returns (fun fuel => matchhere fuel re text) true :=
  (Returns.const true).turn fun fuel => by rw [matchhere, if_pos h0]

theorem matchhere_star (hc : c ≠ 0) {is : List Item}
    (hre : ∀ text, Returns (fun fuel => matchhere fuel re text) (here is (cstr text))) (text : List UInt8) :
    Returns (fun fuel => matchhere fuel (c :: asterisk :: re) text) (here (.star c :: is) (cstr text)) := by
  have hstar := matchstar_returns hre (c.toNat : Int) text
  simp only [admits_toNat] at hstar
  rw [here]
  exact hstar.turn fun fuel => (matchhere_cons fuel hc text).trans (if_pos rfl)

theorem matchhere_eol (h0 : chr re 0 = 0) (text : List UInt8) :
    Returns (fun fuel => matchhere fuel (dollar :: re) text) (here [.eol] (cstr text)) := by
  have hend : decide (chr text 0 = 0) = here [.eol] (cstr text) := by
    obtain ⟨ht, hnil⟩ | ⟨b, t, hb, rfl, hcons⟩ := cstr_cases text
    · simp [here, ht, hnil]
    · simp [here, chr, hb]
  refine (Returns.const _).turn fun fuel => ?_
  rw [matchhere_cons fuel (by decide), h0, if_neg (by decide), if_pos ⟨rfl, rfl⟩, hend]

theorem matchhere_one (hc : c ≠ 0) (hstar : chr re 0 ≠ asterisk) (heol : ¬(c = dollar ∧ chr re 0 = 0)) {is : List Item}
    (hre : ∀ text, Returns (fun fuel => matchhere fuel re text) (here is (cstr text))) (text : List UInt8) :
    Returns (fun fuel => matchhere fuel (c :: re) text) (here (.one c :: is) (cstr text)) := by
  have hturn : ∀ fuel, matchhere (fuel + 1) (c :: re) text =
      if chr text 0 ≠ 0 ∧ (c = dot ∨ c = chr text 0) then matchhere fuel re (text.drop 1) else some false := by
    intro fuel
    rw [matchhere_cons fuel hc, if_neg hstar, if_neg heol]
  obtain ⟨h0, hnil⟩ | ⟨b, t, hb, rfl, hcons⟩ := cstr_cases text
  · rw [hnil, here]
    exact (Returns.const false).turn fun fuel => by rw [hturn, if_neg fun h => h.1 h0]
  · rw [hcons, here]
    by_cases hadmits : c = dot ∨ c = b
    · rw [show admits c b = true from decide_eq_true hadmits, Bool.true_and]
      exact (hre t).turn fun fuel => by rw [hturn, if_pos ⟨hb, hadmits⟩]; rfl
    · rw [show admits c b = false from decide_eq_false hadmits, Bool.false_and]
      exact (Returns.const false).turn fun fuel => by rw [hturn, if_neg fun h => hadmits h.2]

end

/-- A pattern decides the language of its items. -/
theorem matchhere_returns (re text : List UInt8) :
    Returns (fun fuel => matchhere fuel re text) (here (items (cstr re)) (cstr text)) := by
  -- the pattern gets shorter, by two bytes at a star
  induction hn : re.length using Nat.strong_induction_on generalizing re text with
  | _ n ih =>
    subst hn
    obtain ⟨h0, hnil⟩ | ⟨c, re, hc, rfl, hcons⟩ := cstr_cases re
    · rw [hnil]
      exact matchhere_nul h0 text
    · have ih1 : ∀ text, Returns (fun fuel => matchhere fuel re text) (here (items (cstr re)) (cstr text)) :=
        fun text => ih _ (by simp) re text rfl
      rw [hcons]
      obtain ⟨h0, hnil⟩ | ⟨d, re', hd, rfl, hcons'⟩ := cstr_cases re
      · have hstar : chr re 0 ≠ asterisk := by
          rw [h0]
          decide
        rw [hnil] at ih1 ⊢
        rw [items]
        by_cases hdollar : c = dollar
        · rw [if_pos hdollar, hdollar]
          exact matchhere_eol h0 text
        · rw [if_neg hdollar]
          exact matchhere_one hc hstar (fun h => hdollar h.1) ih1 text
      · rw [hcons'] at ih1 ⊢
        rw [items]
        by_cases hstar : d = asterisk
        · rw [if_pos hstar, hstar]
          exact matchhere_star hc (fun text => ih re'.length (by simp only [List.length_cons]; omega) re' text rfl) text
        · rw [if_neg hstar]
          exact @matchhere_one c (d :: re') hc hstar (fun h => hd h.2) _ ih1 text

theorem matchFrom_returns (re text : List UInt8) :
    Returns (fun fuel => matchFrom fuel re text) (reps (here (items (cstr re))) (fun _ => true) (cstr text)) := by
  refine skip_returns (fun fuel text => matchFrom fuel re text) (fun fuel text => ?_) (matchhere_returns re) text
  rw [matchFrom]
  simp

theorem matchText_returns (re text : List UInt8) :
    Returns (fun fuel => matchText fuel re text) (accepts (cstr re) (cstr text)) := by
  have hcaret : chr re 0 = caret ↔ (cstr re).head? = some caret := by
    obtain ⟨h0, hnil⟩ | ⟨c, t, hc, rfl, hcons⟩ := cstr_cases re
    · rw [h0, hnil]
      decide
    · rw [hcons]
      simp [chr]
  have htail : chr re 0 = caret → cstr (re.drop 1) = (cstr re).tail := by
    intro h
    obtain ⟨h0, hnil⟩ | ⟨c, t, hc, rfl, hcons⟩ := cstr_cases re
    · rw [h0] at h
      exact absurd h (by decide)
    · rw [hcons]
      rfl
  by_cases h : chr re 0 = caret
  · simp only [matchText, if_pos h, accepts, if_pos (hcaret.mp h), ← htail h]
    exact matchhere_returns (re.drop 1) text
  · simp only [matchText, if_neg h, accepts, if_neg (mt hcaret.mpr h)]
    exact matchFrom_returns re text

/-- **The matcher decides its pattern language.** `match()` ends for every pattern and text, with true exactly if some
part of the text is in the language of the pattern; `matchhere()` and `matchstar()` end, too. -/
theorem matchText_iff (re text : List UInt8) :
    (∃ r, Returns (fun fuel => matchText fuel re text) r ∧ (r = true ↔ Accepts (cstr re) (cstr text))) ∧
      (∃ r, Returns (fun fuel => matchhere fuel re text) r) ∧
      ∀ c, ∃ r, Returns (fun fuel => matchstar fuel c re text) r :=
  ⟨⟨_, matchText_returns re text, accepts_iff _ _⟩, ⟨_, matchhere_returns re text⟩,
    fun c => ⟨_, matchstar_returns (matchhere_returns re) c text⟩⟩

end Xv6.User.Grep
