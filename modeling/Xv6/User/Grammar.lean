import Xv6.User.Shell
import Mathlib.Data.List.Basic
import Mathlib.Logic.Function.Iterate

/-!
# The grammar of the shell

* `Lexes buf es s ts` : the tokens of the buffer from `s` up to `es`, as text: blanks separate them, a word is as long
  as it can be, and `>>` is one token;
* `Derives` : the grammar, with the command of each derivation;
* `gettoken_spec`, `peek_spec` : the tokens that the parser sees are those of `Lexes`.
-/

namespace Xv6.User.Shell

/-! ## Tokens -/

inductive Token
  | word (q eq : Nat)
  | less | great | append | bar | amp | semi | lparen | rparen
deriving DecidableEq

/-- The tokens of one character other than `>`. -/
def single (c : Char) : Option Token :=
  if c = '<' then some .less
  else if c = '|' then some .bar
  else if c = '&' then some .amp
  else if c = ';' then some .semi
  else if c = '(' then some .lparen
  else if c = ')' then some .rparen
  else none

/-- What `gettoken()` returns for the token. -/
def Token.ret : Token → Char
  | word _ _ => 'a'
  | less => '<'
  | great => '>'
  | append => '+'
  | bar => '|'
  | amp => '&'
  | semi => ';'
  | lparen => '('
  | rparen => ')'

/-- The symbol that the token begins with; a word begins with none. -/
def Token.first : Token → Char
  | append => '>'
  | t => t.ret

section
variable (buf : List Char) (es : Nat)

structure Blanks (s q : Nat) : Prop where
  le : s ≤ q
  all : ∀ i, s ≤ i → i < q → isBlank (chr buf i)

/-- A word from `q` to `eq`. -/
structure WordAt (q eq : Nat) : Prop where
  lt : q < eq
  le : eq ≤ es
  all : ∀ i, q ≤ i → i < eq → isWord (chr buf i)
  stop : eq < es → ¬ isWord (chr buf eq)

/-- The token is the text from `q` to `e`. -/
inductive Occupies : Token → Nat → Nat → Prop
  | single {t : Token} {q : Nat} : q < es → single (chr buf q) = some t → Occupies t q (q + 1)
  | great {q : Nat} : q < es → chr buf q = '>' → chr buf (q + 1) ≠ '>' → Occupies .great q (q + 1)
  | append {q : Nat} : q < es → chr buf q = '>' → chr buf (q + 1) = '>' → Occupies .append q (q + 2)
  | word {q eq : Nat} : WordAt buf es q eq → Occupies (.word q eq) q eq

inductive Lexes : Nat → List Token → Prop
  | done {s : Nat} : Blanks buf s es → Lexes s []
  | token {s q e : Nat} {t : Token} {ts : List Token} :
      Blanks buf s q → Occupies buf es t q e → Lexes e ts → Lexes s (t :: ts)

/-- The buffer holds a string that ends at `es`. -/
structure Terminated : Prop where
  text : ∀ i < es, chr buf i ≠ '\x00'
  nul : chr buf es = '\x00'

end

/-! ## Derivations -/

structure Redir where
  file : Nat
  efile : Nat
  mode : Nat
  fd : Nat

/-- The command with redirections around it, the last of them outermost. -/
def Cmd.wrap (cmd : Cmd) (rs : List Redir) : Cmd := rs.foldl (fun cmd r => .redir cmd r.file r.efile r.mode r.fd) cmd

/-- How a redirection opens its file, and as which descriptor. -/
def Token.opens : Token → Option (Nat × Nat)
  | less => some (oRdonly, 0)
  | great => some (oWronly ||| oCreate ||| oTrunc, 1)
  | append => some (oWronly ||| oCreate, 1)
  | _ => none

/-- `redir*`. -/
inductive Redirs : List Token → List Redir → Prop
  | nil : Redirs [] []
  | cons {t : Token} {q eq mode fd : Nat} {ts : List Token} {rs : List Redir} :
      t.opens = some (mode, fd) → Redirs ts rs → Redirs (t :: .word q eq :: ts) (⟨q, eq, mode, fd⟩ :: rs)

/-- `(word redir*)*`. -/
inductive Args : List Token → List (Nat × Nat) → List Redir → Prop
  | nil : Args [] [] []
  | cons {q eq : Nat} {us ts : List Token} {argv : List (Nat × Nat)} {rs rs' : List Redir} :
      Redirs us rs → Args ts argv rs' → Args (.word q eq :: (us ++ ts)) ((q, eq) :: argv) (rs ++ rs')

inductive Nonterminal
  | line | pipe | exec

/-- The grammar: what the tokens derive from, and their command. -/
inductive Derives : Nonterminal → List Token → Cmd → Prop
  | line {n : Nat} {ts : List Token} {c : Cmd} :
      Derives .pipe ts c → Derives .line (ts ++ List.replicate n .amp) (Cmd.back^[n] c)
  | list {n : Nat} {ts us : List Token} {c d : Cmd} :
      Derives .pipe ts c → Derives .line us d →
      Derives .line (ts ++ List.replicate n .amp ++ .semi :: us) (.list (Cmd.back^[n] c) d)
  | exec {ts : List Token} {c : Cmd} : Derives .exec ts c → Derives .pipe ts c
  | pipe {ts us : List Token} {c d : Cmd} :
      Derives .exec ts c → Derives .pipe us d → Derives .pipe (ts ++ .bar :: us) (.pipe c d)
  | block {ts us : List Token} {c : Cmd} {rs : List Redir} :
      Derives .line ts c → Redirs us rs → Derives .exec (.lparen :: (ts ++ .rparen :: us)) (c.wrap rs)
  | words {ts us : List Token} {argv : List (Nat × Nat)} {rs rs' : List Redir} :
      Redirs ts rs → Args us argv rs' → argv.length ≤ 9 → Derives .exec (ts ++ us) ((Cmd.exec argv).wrap (rs ++ rs'))

/-! ## Scanning -/

section
variable {buf : List Char} {es s q e : Nat} {t : Token} {ts : List Token} {p : Char → Bool} {c : Char}

theorem strlen_terminated (buf : List Char) : Terminated buf (strlen buf) := by
  induction buf with
  | nil => exact ⟨fun i hi => absurd hi (Nat.not_lt_zero i), rfl⟩
  | cons c buf ih =>
    by_cases hc : c = '\x00'
    · have hlen : strlen (c :: buf) = 0 := by
        rw [strlen, List.takeWhile_cons_of_neg (by simp [hc])]
        rfl
      rw [hlen]
      exact ⟨fun i hi => absurd hi (Nat.not_lt_zero i), hc⟩
    · have hlen : strlen (c :: buf) = strlen buf + 1 := by
        rw [strlen, List.takeWhile_cons_of_pos (by simp [hc]), List.length_cons, strlen]
      rw [hlen]
      refine ⟨fun i hi => ?_, ih.nul⟩
      cases i with
      | zero => exact hc
      | succ i => exact ih.text i (by omega)

/-- The scan ends at the first character that is not wanted. -/
theorem scan_eq {n : Nat} (hsq : s ≤ q) (hle : q ≤ s + n) (hall : ∀ i, s ≤ i → i < q → p (chr buf i))
    (hstop : q < s + n → ¬ p (chr buf q)) : scan p buf n s = q := by
  induction n generalizing s with
  | zero =>
    rw [scan]
    omega
  | succ n ih =>
    rw [scan]
    by_cases heq : s = q
    · subst heq
      exact if_neg (hstop (by omega))
    · rw [if_pos (hall s (Nat.le_refl s) (by omega))]
      exact ih (by omega) (by omega) (fun i hi hiq => hall i (by omega) hiq) (fun hlt => hstop (by omega))

theorem scan_spec (p : Char → Bool) (buf : List Char) (n s : Nat) : s ≤ scan p buf n s ∧ scan p buf n s ≤ s + n ∧
    (∀ i, s ≤ i → i < scan p buf n s → p (chr buf i)) ∧ (scan p buf n s < s + n → ¬ p (chr buf (scan p buf n s))) := by
  induction n generalizing s with
  | zero => exact ⟨Nat.le_refl s, Nat.le_refl s, fun i hi hlt => absurd hi (Nat.not_le.mpr hlt), fun hlt =>
      absurd hlt (Nat.lt_irrefl s)⟩
  | succ n ih =>
    rw [scan]
    split
    · next hp =>
        obtain ⟨hge, hle, hall, hstop⟩ := ih (s + 1)
        refine ⟨by omega, by omega, fun i hi hlt => ?_, fun hlt => hstop (by omega)⟩
        by_cases heq : i = s
        · rw [heq]
          exact hp
        · exact hall i (by omega) hlt
    · next hp => exact ⟨Nat.le_refl s, by omega, fun i hi hlt => absurd hi (Nat.not_le.mpr hlt), fun _ => hp⟩

/-- Blanks are skipped up to the next token. -/
theorem scan_blanks (hb : Blanks buf s q) (hle : q ≤ es) (hstop : q < es → ¬ isBlank (chr buf q)) :
    scan isBlank buf (es - s) s = q := by
  have hsq := hb.le
  exact scan_eq hsq (by omega) hb.all (fun hlt => hstop (by omega))

theorem blanks_scan (buf : List Char) (es s : Nat) : Blanks buf s (scan isBlank buf (es - s) s) := by
  obtain ⟨hge, -, hall, -⟩ := scan_spec isBlank buf (es - s) s
  exact ⟨hge, hall⟩

/-! ## The tokens of the parser -/

theorem single_char (h : single c = some t) : t.ret = c ∧ t.first = c ∧ c ∈ ['|', '(', ')', ';', '&', '<'] := by
  unfold single at h
  split_ifs at h with hc hc hc hc hc hc <;> cases h <;> subst hc <;> decide

theorem isWord_iff : isWord c = true ↔ c ∉ whitespace ∧ c ∉ symbols := decide_eq_true_iff

theorem isBlank_iff : isBlank c = true ↔ c ∈ whitespace := decide_eq_true_iff

theorem Occupies.not_blank (h : Occupies buf es t q e) : ¬ isBlank (chr buf q) := by
  rw [isBlank_iff]
  cases h with
  | single _ hsingle =>
    have hmem := (single_char hsingle).2.2
    intro hblank
    simp only [List.mem_cons, List.not_mem_nil, or_false] at hmem
    rcases hmem with h | h | h | h | h | h <;> rw [h] at hblank <;> exact absurd hblank (by decide)
  | great _ hc _ =>
    rw [hc]
    decide
  | append _ hc _ =>
    rw [hc]
    decide
  | word hw => exact (isWord_iff.mp (hw.all q (Nat.le_refl q) hw.lt)).1

section
variable (hend : Terminated buf es)
include hend

theorem Occupies.bounds (h : Occupies buf es t q e) : q < e ∧ e ≤ es := by
  cases h with
  | single hlt _ => exact ⟨Nat.lt_succ_self q, hlt⟩
  | great hlt _ _ => exact ⟨Nat.lt_succ_self q, hlt⟩
  | append hlt _ hc =>
    have hne : q + 1 ≠ es := by
      intro heq
      rw [heq, hend.nul] at hc
      exact absurd hc (by decide)
    omega
  | word hw => exact ⟨hw.lt, hw.le⟩

theorem lexeme_spec (h : Occupies buf es t q e) : lexeme buf es q = (t.ret, e) := by
  have hnul : chr buf q ≠ '\x00' := by
    have hb := h.bounds hend
    exact hend.text q (by omega)
  rw [lexeme, if_neg hnul]
  cases h with
  | single _ hsingle =>
    obtain ⟨hret, -, hmem⟩ := single_char hsingle
    rw [if_pos hmem, hret]
  | great _ hc hne =>
    rw [hc, if_neg (by decide), if_pos rfl, if_neg hne]
    rfl
  | append _ hc heq =>
    rw [hc, if_neg (by decide), if_pos rfl, if_pos heq]
    rfl
  | word hw =>
    obtain ⟨-, hsym⟩ := isWord_iff.mp (hw.all q (Nat.le_refl q) hw.lt)
    have hsub : ∀ c ∈ ['|', '(', ')', ';', '&', '<'], c ∈ symbols := by simp [symbols]
    have hgt : chr buf q ≠ '>' := by
      intro heq
      exact hsym (heq ▸ by decide)
    have hlt := hw.lt
    have hle := hw.le
    rw [if_neg (fun hmem => hsym (hsub _ hmem)), if_neg hgt,
      scan_eq (by omega) (by omega) hw.all (fun hlt => hw.stop (by omega))]
    rfl

/-- The blanks before a token may be skipped. -/
theorem Lexes.skip (h : Lexes buf es s ts) : Lexes buf es (scan isBlank buf (es - s) s) ts := by
  cases h with
  | done hb =>
    rw [scan_blanks hb (Nat.le_refl es) (fun hlt => absurd hlt (Nat.lt_irrefl es))]
    exact .done ⟨Nat.le_refl es, fun i hi hlt => absurd hi (Nat.not_le.mpr hlt)⟩
  | @token _ q _ _ _ hb hocc hrest =>
    have hbounds := hocc.bounds hend
    rw [scan_blanks hb (by omega) (fun _ => hocc.not_blank)]
    exact .token ⟨Nat.le_refl q, fun i hi hlt => absurd hi (Nat.not_le.mpr hlt)⟩ hocc hrest

theorem gettoken_end (h : Lexes buf es s []) :
    gettoken buf es s = { ret := '\x00', q := es, eq := es, s := es } := by
  cases h with
  | done hb =>
    have hscan := scan_blanks hb (Nat.le_refl es) (fun hlt => absurd hlt (Nat.lt_irrefl es))
    have hlex : lexeme buf es es = ('\x00', es) := by
      rw [lexeme, if_pos hend.nul, hend.nul]
    rw [gettoken, hscan, hlex]
    show Got.mk '\x00' es es (scan isBlank buf (es - es) es) = _
    rw [Nat.sub_self]
    rfl

theorem gettoken_spec (h : Lexes buf es s (t :: ts)) :
    (gettoken buf es s).ret = t.ret ∧ Lexes buf es (gettoken buf es s).s ts ∧
      Occupies buf es t (gettoken buf es s).q (gettoken buf es s).eq := by
  cases h with
  | @token _ q e _ _ hb hocc hrest =>
    have hbounds := hocc.bounds hend
    have hscan : scan isBlank buf (es - s) s = q := scan_blanks hb (by omega) (fun _ => hocc.not_blank)
    have heq : gettoken buf es s = { ret := t.ret, q := q, eq := e, s := scan isBlank buf (es - e) e } := by
      rw [gettoken, hscan, lexeme_spec hend hocc]
    rw [heq]
    exact ⟨rfl, hrest.skip hend, hocc⟩

/-- `peek()` looks at the next token, and skips the blanks before it. -/
theorem peek_spec (h : Lexes buf es s ts) (toks : List Char) (hsub : ∀ c ∈ toks, c ∈ symbols) :
    (peek buf es toks s).1 = (ts.head?.any fun t => t.first ∈ toks) ∧ Lexes buf es (peek buf es toks s).2 ts := by
  refine ⟨?_, h.skip hend⟩
  cases h with
  | done hb =>
    rw [peek, scan_blanks hb (Nat.le_refl es) (fun hlt => absurd hlt (Nat.lt_irrefl es)), hend.nul]
    rfl
  | @token _ q _ t _ hb hocc _ =>
    have hbounds := hocc.bounds hend
    have hnul := hend.text q (by omega)
    rw [peek, scan_blanks hb (by omega) (fun _ => hocc.not_blank)]
    have hiff : (chr buf q ≠ '\x00' ∧ chr buf q ∈ toks) ↔ t.first ∈ toks := by
      cases hocc with
      | single _ hsingle => rw [(single_char hsingle).2.1, and_iff_right hnul]
      | great _ hc _ => rw [and_iff_right hnul, hc]; rfl
      | append _ hc _ => rw [and_iff_right hnul, hc]; rfl
      | word hw =>
        have hsym := (isWord_iff.mp (hw.all q (Nat.le_refl q) hw.lt)).2
        have hfirst : 'a' ∉ symbols := by decide
        exact ⟨fun hmem => absurd (hsub _ hmem.2) hsym, fun hmem => absurd (hsub _ hmem) hfirst⟩
    exact decide_eq_decide.mpr hiff

theorem peek_true (h : Lexes buf es s (t :: ts)) (toks : List Char) (hsub : ∀ c ∈ toks, c ∈ symbols)
    (hmem : t.first ∈ toks) : ∃ s', peek buf es toks s = (true, s') ∧ Lexes buf es s' (t :: ts) := by
  obtain ⟨hpeek, hlex⟩ := peek_spec hend h toks hsub
  exact ⟨_, Prod.ext (hpeek.trans (decide_eq_true hmem)) rfl, hlex⟩

theorem peek_false (h : Lexes buf es s ts) (toks : List Char) (hsub : ∀ c ∈ toks, c ∈ symbols)
    (hno : ∀ t ∈ ts.head?, t.first ∉ toks) : ∃ s', peek buf es toks s = (false, s') ∧ Lexes buf es s' ts := by
  obtain ⟨hpeek, hlex⟩ := peek_spec hend h toks hsub
  refine ⟨_, Prod.ext (hpeek.trans ?_) rfl, hlex⟩
  cases ts with
  | nil => rfl
  | cons t ts => exact decide_eq_false (hno t rfl)

end

/-! ## Every string has its tokens -/

theorem exists_occupies (hq : q < es) (hb : ¬ isBlank (chr buf q)) :
    ∃ t e, Occupies buf es t q e := by
  by_cases hgt : chr buf q = '>'
  · by_cases hgt' : chr buf (q + 1) = '>'
    · exact ⟨_, _, .append hq hgt hgt'⟩
    · exact ⟨_, _, .great hq hgt hgt'⟩
  · cases hs : single (chr buf q) with
    | some t => exact ⟨t, _, .single hq hs⟩
    | none =>
      have hword : isWord (chr buf q) := by
        refine isWord_iff.mpr ⟨fun hmem => hb (isBlank_iff.mpr hmem), fun hmem => ?_⟩
        simp only [symbols, List.mem_cons, List.not_mem_nil, or_false] at hmem
        unfold single at hs
        split_ifs at hs
        tauto
      obtain ⟨hge, hle, hall, hstop⟩ := scan_spec isWord buf (es - q) q
      have hne : scan isWord buf (es - q) q ≠ q := by
        intro heq
        rw [heq] at hstop
        exact hstop (by omega) hword
      exact ⟨_, _, .word ⟨by omega, by omega, hall, fun hlt => hstop (by omega)⟩⟩

theorem exists_lexes (hend : Terminated buf es) {n : Nat} (hs : s ≤ es) (hn : es - s ≤ n) :
    ∃ ts, Lexes buf es s ts := by
  induction n generalizing s with
  | zero => exact ⟨[], .done ⟨hs, fun i hi hlt => by omega⟩⟩
  | succ n ih =>
    have hb := blanks_scan buf es s
    obtain ⟨hge, hle, -, hstop⟩ := scan_spec isBlank buf (es - s) s
    by_cases hq : scan isBlank buf (es - s) s = es
    · exact ⟨[], .done (hq ▸ hb)⟩
    · obtain ⟨t, e, hocc⟩ : ∃ t e, Occupies buf es t (scan isBlank buf (es - s) s) e :=
        exists_occupies (by omega) (hstop (by omega))
      have hbounds := hocc.bounds hend
      obtain ⟨ts, hts⟩ := ih hbounds.2 (by omega)
      exact ⟨t :: ts, .token hb hocc hts⟩

theorem Occupies.word_eq {q' eq : Nat} (h : Occupies buf es (.word q' eq) q e) :
    q' = q ∧ eq = e ∧ WordAt buf es q' eq := by
  cases h with
  | word hw => exact ⟨rfl, rfl, hw⟩
  | single _ hs =>
    unfold Shell.single at hs
    split_ifs at hs <;> cases hs

theorem Token.eq_of_ret {t' : Token} (h : t.ret = t'.ret) :
    (∃ a b a' b', t = .word a b ∧ t' = .word a' b') ∨ t = t' := by
  cases t <;> cases t' <;> simp [Token.ret] at h ⊢

theorem Occupies.unique {t' : Token} {e' : Nat} (hend : Terminated buf es) (h : Occupies buf es t q e)
    (h' : Occupies buf es t' q e') : t = t' ∧ e = e' := by
  obtain ⟨hret, he⟩ := Prod.mk.inj ((lexeme_spec hend h).symm.trans (lexeme_spec hend h'))
  refine ⟨?_, he⟩
  rcases Token.eq_of_ret hret with ⟨a, b, a', b', rfl, rfl⟩ | heq
  · obtain ⟨hq, heq, -⟩ := h.word_eq
    obtain ⟨hq', heq', -⟩ := h'.word_eq
    rw [hq, heq, hq', heq', he]
  · exact heq

theorem Lexes.unique {ts' : List Token} (hend : Terminated buf es) (h : Lexes buf es s ts) (h' : Lexes buf es s ts') :
    ts = ts' := by
  induction h generalizing ts' with
  | done hb =>
    cases h' with
    | done _ => rfl
    | token hb' hocc _ =>
      have hbounds := hocc.bounds hend
      exact absurd (hb.all _ hb'.le (by omega)) hocc.not_blank
  | @token s q _ _ _ hb hocc _ ih =>
    have hbounds := hocc.bounds hend
    cases h' with
    | done hb' => exact absurd (hb'.all _ hb.le (by omega)) hocc.not_blank
    | @token _ q' _ _ _ hb' hocc' hrest' =>
      have hbounds' := hocc'.bounds hend
      have hscan : scan isBlank buf (es - s) s = q := scan_blanks hb (by omega) (fun _ => hocc.not_blank)
      have hscan' : scan isBlank buf (es - s) s = q' := scan_blanks hb' (by omega) (fun _ => hocc'.not_blank)
      obtain rfl : q = q' := hscan.symm.trans hscan'
      obtain ⟨rfl, rfl⟩ := hocc.unique hend hocc'
      rw [ih hrest']

end

end Xv6.User.Shell
