import Xv6.User.Grammar
import Mathlib.Data.List.GetD

/-!
# The parser accepts the grammar

* `parse_settles` : the parser ends, and what it returns derives from the tokens that it has read;
* `parse_derives` : it returns the command of every derivation;
* `parsecmd_accepts` : `parsecmd()` returns a command exactly for the lines of the grammar, and the strings of the
  command are the words of the line.
-/

namespace Xv6.User.Shell
open Fuel

section
variable {buf : List Char} {es s : Nat} {t : Token} {ts us vs : List Token} {c : Cmd} {rs : List Redir}
  {q eq fd n : Nat} {rs' : List Redir} {u : Token}

/-! ## Redirections -/

theorem first_mem_opens : t.first ∈ ['<', '>'] ↔ t.opens ≠ none := by
  cases t <;> simp [Token.first, Token.ret, Token.opens]

theorem redirect_eq {mode : Nat} (h : t.opens = some (mode, fd)) : redirect c t.ret q eq = .redir c q eq mode fd := by
  cases t <;> cases h <;> rfl

theorem word_of_ret (h : t.ret = 'a') : ∃ q eq, t = .word q eq := by
  cases t <;> simp [Token.ret] at h ⊢

section
variable (hend : Terminated buf es)
include hend

theorem parseredirs_stop (h : Lexes buf es s ts) (hstop : ∀ t ∈ ts.head?, t.opens = none) :
    ∃ s', Lexes buf es s' ts ∧ ∀ c fuel, parseredirs buf es (fuel + 1) c s = pure (c, s') := by
  obtain ⟨s', hpeek, hlex⟩ := peek_false hend h ['<', '>'] (by simp [symbols]) (fun t ht hmem =>
    first_mem_opens.mp hmem (hstop t ht))
  refine ⟨s', hlex, fun c fuel => ?_⟩
  rw [parseredirs, hpeek]
  rfl

theorem parseredirs_next {mode : Nat} (h : Lexes buf es s (t :: .word q eq :: ts)) (hopen : t.opens = some (mode, fd)) :
    ∃ s', Lexes buf es s' ts ∧
      ∀ c fuel, parseredirs buf es (fuel + 1) c s = parseredirs buf es fuel (.redir c q eq mode fd) s' := by
  obtain ⟨s', hpeek, hlex⟩ := peek_true hend h ['<', '>'] (by simp [symbols]) (first_mem_opens.mpr (by simp [hopen]))
  obtain ⟨hret, hlex', -⟩ := gettoken_spec hend hlex
  obtain ⟨hret', hlex'', hocc⟩ := gettoken_spec hend hlex'
  obtain ⟨hq, heq, -⟩ := hocc.word_eq
  refine ⟨_, hlex'', fun c fuel => ?_⟩
  rw [parseredirs, hpeek]
  show (if (gettoken buf es (gettoken buf es s').s).ret ≠ 'a' then _
    else parseredirs buf es fuel (redirect c _ _ _) _) = _
  rw [hret', if_neg (fun hne => hne rfl), hret, redirect_eq hopen, ← hq, ← heq]

theorem parseredirs_panic {mode : Nat} (h : Lexes buf es s (t :: ts)) (hopen : t.opens = some (mode, fd))
    (hno : ∀ u ∈ ts.head?, u.ret ≠ 'a') (c : Cmd) (fuel : Nat) :
    parseredirs buf es (fuel + 1) c s = throw "missing file for redirection" := by
  obtain ⟨s', hpeek, hlex⟩ := peek_true hend h ['<', '>'] (by simp [symbols]) (first_mem_opens.mpr (by simp [hopen]))
  obtain ⟨-, hlex', -⟩ := gettoken_spec hend hlex
  have hret : (gettoken buf es (gettoken buf es s').s).ret ≠ 'a' := by
    cases ts with
    | nil =>
      rw [gettoken_end hend hlex']
      exact (by decide : '\x00' ≠ 'a')
    | cons u ts =>
      rw [(gettoken_spec hend hlex').1]
      exact hno u rfl
  rw [parseredirs, hpeek]
  exact if_pos hret

/-- The redirections that are next are read. -/
theorem redirs_settle (h : Lexes buf es s ts) (c : Cmd) :
    Settles (fun fuel => parseredirs buf es fuel c s)
      (fun r => ∃ us vs rs, ts = us ++ vs ∧ Redirs us rs ∧ r.1 = c.wrap rs ∧ Lexes buf es r.2 vs) := by
  induction hn : ts.length using Nat.strong_induction_on generalizing s ts c with
  | _ n ih =>
    subst hn
    by_cases hopen : ∀ t ∈ ts.head?, t.opens = none
    · obtain ⟨s', hlex, heq⟩ := parseredirs_stop hend h hopen
      exact (Settles.pure ⟨[], ts, [], rfl, .nil, rfl, hlex⟩).turn (heq c)
    · cases ts with
      | nil => exact absurd (fun t ht => nomatch ht) hopen
      | cons t ts =>
        have hopen' : t.opens ≠ none := fun hnone => hopen fun u hu => Option.some.inj hu ▸ hnone
        obtain ⟨⟨mode, fd⟩, hopen'⟩ := Option.ne_none_iff_exists'.mp hopen'
        by_cases hword : ∃ q eq ts', ts = .word q eq :: ts'
        · obtain ⟨q, eq, ts', rfl⟩ := hword
          obtain ⟨s', hlex, heq⟩ := parseredirs_next hend h hopen'
          have hrest := ih ts'.length (by simp only [List.length_cons]; omega) hlex (.redir c q eq mode fd) rfl
          refine (hrest.turn (heq c)).mono ?_
          rintro r ⟨us, vs, rs, rfl, hr, hc, hlex'⟩
          exact ⟨t :: .word q eq :: us, vs, ⟨q, eq, mode, fd⟩ :: rs, rfl, .cons hopen' hr, hc, hlex'⟩
        · refine (Settles.throw "missing file for redirection").turn (parseredirs_panic hend h hopen' ?_ c)
          intro u hu hret
          cases ts with
          | nil => cases hu
          | cons u' ts =>
            obtain rfl : u' = u := Option.some.inj hu
            obtain ⟨q, eq, rfl⟩ := word_of_ret hret
            exact hword ⟨q, eq, ts, rfl⟩

theorem redirs_derive (hr : Redirs us rs) (h : Lexes buf es s (us ++ vs)) (hstop : ∀ t ∈ vs.head?, t.opens = none)
    (c : Cmd) :
    ∃ s', Lexes buf es s' vs ∧ Returns (fun fuel => parseredirs buf es fuel c s) (.ok (c.wrap rs, s')) := by
  induction hr generalizing s c with
  | nil =>
    obtain ⟨s', hlex, heq⟩ := parseredirs_stop hend h hstop
    exact ⟨s', hlex, (Returns.const _).turn (heq c)⟩
  | @cons t q eq mode fd ts rs hopen _ ih =>
    obtain ⟨s', hlex, heq⟩ := parseredirs_next hend h hopen
    obtain ⟨s'', hlex', hret⟩ := ih hlex (.redir c q eq mode fd)
    exact ⟨s'', hlex', hret.turn (heq c)⟩

end

/-! ## Arguments -/

theorem addArg_wrap : (c.wrap rs).addArg q eq = (c.addArg q eq).wrap rs := by
  induction rs generalizing c with
  | nil => rfl
  | cons r rs ih => exact ih

theorem wrap_append : c.wrap (rs ++ rs') = (c.wrap rs).wrap rs' := List.foldl_append

/-- The tokens that end the arguments. -/
def Token.ends (t : Token) : Prop := t.first ∈ ['|', ')', '&', ';']

instance : DecidablePred Token.ends := fun t => inferInstanceAs (Decidable (t.first ∈ ['|', ')', '&', ';']))

theorem opens_of_ends (h : t.ends) : t.opens = none := by
  cases t <;> first | rfl | exact absurd h (by decide)

theorem parseargs_stop (hend : Terminated buf es) (h : Lexes buf es s ts) (hstop : ∀ t ∈ ts.head?, t.ends) :
    ∃ s', Lexes buf es s' ts ∧ ∀ c argc fuel, parseargs buf es (fuel + 1) c argc s = pure (c, s') := by
  cases ts with
  | nil =>
    obtain ⟨s', hpeek, hlex⟩ := peek_false hend h ['|', ')', '&', ';'] (by simp [symbols]) (fun t ht => nomatch ht)
    refine ⟨es, ?_, fun c argc fuel => ?_⟩
    · exact .done ⟨Nat.le_refl es, fun i hi hlt => absurd hi (Nat.not_le.mpr hlt)⟩
    · rw [parseargs, hpeek]
      show (if (gettoken buf es s').ret = '\x00' then pure (c, (gettoken buf es s').s) else _) = _
      rw [gettoken_end hend hlex]
      rfl
  | cons t ts =>
    obtain ⟨s', hpeek, hlex⟩ := peek_true hend h ['|', ')', '&', ';'] (by simp [symbols]) (hstop t rfl)
    refine ⟨s', hlex, fun c argc fuel => ?_⟩
    rw [parseargs, hpeek]
    rfl

theorem parseargs_word (hend : Terminated buf es) (h : Lexes buf es s (.word q eq :: ts)) :
    ∃ s', Lexes buf es s' ts ∧ ∀ c argc fuel, parseargs buf es (fuel + 1) c argc s =
      if maxargs ≤ argc + 1 then throw "too many args"
      else parseredirs buf es fuel (c.addArg q eq) s' >>= fun r => parseargs buf es fuel r.1 (argc + 1) r.2 := by
  obtain ⟨s', hpeek, hlex⟩ := peek_false hend h ['|', ')', '&', ';'] (by simp [symbols])
    (fun t ht => Option.some.inj ht ▸ (by decide : 'a' ∉ ['|', ')', '&', ';']))
  obtain ⟨hret, hlex', hocc⟩ := gettoken_spec hend hlex
  obtain ⟨hq, heq, -⟩ := hocc.word_eq
  refine ⟨_, hlex', fun c argc fuel => ?_⟩
  rw [parseargs, hpeek]
  show (if (gettoken buf es s').ret = '\x00' then _ else if (gettoken buf es s').ret ≠ 'a' then _ else
    if maxargs ≤ argc + 1 then _ else
    parseredirs buf es fuel (c.addArg (gettoken buf es s').q (gettoken buf es s').eq) (gettoken buf es s').s >>= _) = _
  rw [hret, ← hq, ← heq]
  rfl

theorem parseargs_panic (hend : Terminated buf es) (h : Lexes buf es s (t :: ts)) (hno : ¬ t.ends) (hword : t.ret ≠ 'a')
    (c : Cmd) (argc fuel : Nat) : parseargs buf es (fuel + 1) c argc s = throw "syntax" := by
  obtain ⟨s', hpeek, hlex⟩ := peek_false hend h ['|', ')', '&', ';'] (by simp [symbols]) (fun u hu =>
    Option.some.inj hu ▸ hno)
  obtain ⟨hret, -, -⟩ := gettoken_spec hend hlex
  have hnul : t.ret ≠ '\x00' := by cases t <;> simp [Token.ret]
  rw [parseargs, hpeek]
  show (if (gettoken buf es s').ret = '\x00' then _ else if (gettoken buf es s').ret ≠ 'a' then _ else _) = _
  rw [hret, if_neg hnul, if_pos hword]

theorem args_settle (argv : List (Nat × Nat)) (hend : Terminated buf es) (h : Lexes buf es s ts)
    (hargc : argv.length ≤ 9) :
    Settles (fun fuel => parseargs buf es fuel ((Cmd.exec argv).wrap rs) argv.length s)
      (fun r => ∃ us vs argv' rs', ts = us ++ vs ∧ Args us argv' rs' ∧ (argv ++ argv').length ≤ 9 ∧
        r.1 = (Cmd.exec (argv ++ argv')).wrap (rs ++ rs') ∧ Lexes buf es r.2 vs) := by
  induction hn : ts.length using Nat.strong_induction_on generalizing s ts argv rs with
  | _ n ih =>
    subst hn
    by_cases hstop : ∀ t ∈ ts.head?, t.ends
    · obtain ⟨s', hlex, heq⟩ := parseargs_stop hend h hstop
      refine (Settles.pure ⟨[], ts, [], [], rfl, .nil, ?_, ?_, hlex⟩).turn (heq _ _)
      · rw [List.append_nil]
        exact hargc
      · rw [List.append_nil, List.append_nil]
    · cases ts with
      | nil => exact absurd (fun t ht => nomatch ht) hstop
      | cons t ts =>
        have hno : ¬ t.ends := fun hends => hstop fun u hu => Option.some.inj hu ▸ hends
        by_cases hword : t.ret = 'a'
        · obtain ⟨q, eq, rfl⟩ := word_of_ret hword
          obtain ⟨s', hlex, heq⟩ := parseargs_word hend h
          by_cases hmax : maxargs ≤ argv.length + 1
          · refine (Settles.throw "too many args").turn fun fuel => ?_
            rw [heq, if_pos hmax]
          · have hturn :
                Settles (fun fuel => parseredirs buf es fuel (((Cmd.exec argv).wrap rs).addArg q eq) s' >>= fun r =>
                parseargs buf es fuel r.1 (argv.length + 1) r.2)
                (fun r => ∃ us vs argv' rs', Token.word q eq :: ts = us ++ vs ∧ Args us argv' rs' ∧
                  (argv ++ argv').length ≤ 9 ∧ r.1 = (Cmd.exec (argv ++ argv')).wrap (rs ++ rs') ∧
                  Lexes buf es r.2 vs) := by
              refine (redirs_settle hend hlex _).bind ?_
              rintro ⟨d, s''⟩ ⟨us, vs, rs', rfl, hr, hd, hlex'⟩
              rw [addArg_wrap, ← wrap_append] at hd
              change d = _ at hd
              subst hd
              have hlen : (argv ++ [(q, eq)]).length = argv.length + 1 := List.length_append
              rw [maxargs] at hmax
              have hrest : Settles (fun fuel => parseargs buf es fuel ((Cmd.exec (argv ++ [(q, eq)])).wrap (rs ++ rs'))
                  (argv ++ [(q, eq)]).length s'') _ :=
                ih vs.length (by simp only [List.length_cons, List.length_append]; omega) _ hlex' (by omega) rfl
              rw [hlen] at hrest
              refine hrest.mono ?_
              rintro r ⟨us', vs', argv', rs'', rfl, hargs, hle, hr', hlex''⟩
              refine ⟨.word q eq :: (us ++ us'), vs', (q, eq) :: argv', rs' ++ rs'', ?_, .cons hr hargs, ?_, ?_, hlex''⟩
              · rw [List.cons_append, List.append_assoc]
              · rw [List.append_assoc] at hle
                exact hle
              · rw [hr', List.append_assoc, List.append_assoc]
                rfl
            refine hturn.turn fun fuel => ?_
            rw [heq, if_neg hmax]
        · exact (Settles.throw "syntax").turn (parseargs_panic hend h hno hword _ _)

theorem args_derive {argv' : List (Nat × Nat)} (argv : List (Nat × Nat)) (hend : Terminated buf es)
    (ha : Args us argv' rs') (h : Lexes buf es s (us ++ vs)) (hstop : ∀ t ∈ vs.head?, t.ends)
    (hlen : (argv ++ argv').length ≤ 9) :
    ∃ s', Lexes buf es s' vs ∧ Returns (fun fuel => parseargs buf es fuel ((Cmd.exec argv).wrap rs) argv.length s)
      (.ok ((Cmd.exec (argv ++ argv')).wrap (rs ++ rs'), s')) := by
  induction ha generalizing s argv rs with
  | nil =>
    obtain ⟨s', hlex, heq⟩ := parseargs_stop hend h hstop
    rw [List.append_nil, List.append_nil]
    exact ⟨s', hlex, (Returns.const _).turn (heq _ _)⟩
  | @cons q eq us ts argv' rs₁ rs₂ hr hargs ih =>
    rw [List.cons_append, List.append_assoc] at h
    obtain ⟨s', hlex, heq⟩ := parseargs_word hend h
    have hnext : ∀ t ∈ (ts ++ vs).head?, t.opens = none := by
      cases hargs with
      | nil => exact fun t ht => opens_of_ends (hstop t ht)
      | cons _ _ => exact fun t ht => Option.some.inj ht ▸ rfl
    obtain ⟨s'', hlex', hret⟩ := redirs_derive hend hr hlex hnext (((Cmd.exec argv).wrap rs).addArg q eq)
    rw [addArg_wrap, ← wrap_append] at hret
    have hlen' : (argv ++ [(q, eq)] ++ argv').length ≤ 9 := by
      rw [List.append_assoc]
      exact hlen
    obtain ⟨s₃, hlex₃, hret₃⟩ : ∃ s₃, Lexes buf es s₃ vs ∧ Returns (fun fuel => parseargs buf es fuel
        ((Cmd.exec (argv ++ [(q, eq)])).wrap (rs ++ rs₁)) (argv ++ [(q, eq)]).length s'')
        (.ok ((Cmd.exec (argv ++ [(q, eq)] ++ argv')).wrap (rs ++ rs₁ ++ rs₂), s₃)) := ih _ hlex' hlen'
    rw [List.append_assoc, List.append_assoc, List.length_append] at hret₃
    have hboth : Returns (fun fuel => (parseredirs buf es fuel ((Cmd.exec (argv ++ [(q, eq)])).wrap rs) s' >>= fun r =>
        parseargs buf es fuel r.1 (argv.length + 1) r.2 : Parse _)) _ := hret.bind hret₃
    refine ⟨s₃, hlex₃, hboth.turn fun fuel => ?_⟩
    have hmax : ¬ maxargs ≤ argv.length + 1 := by
      simp only [List.length_append, List.length_cons] at hlen
      rw [maxargs]
      omega
    rw [heq, if_neg hmax, addArg_wrap]
    rfl

/-! ## Background commands -/

theorem eq_of_first (hu : u ∈ [Token.amp, .semi, .bar, .lparen, .rparen]) (h : t.first = u.first) : t = u := by
  simp only [List.mem_cons, List.not_mem_nil, or_false] at hu
  rcases hu with rfl | rfl | rfl | rfl | rfl <;> cases t <;> simp [Token.first, Token.ret] at h ⊢

section
variable (hend : Terminated buf es)
include hend

/-- `peek()` for a symbol says whether it is the next token. -/
theorem peek_symbol (h : Lexes buf es s ts) (hu : u ∈ [Token.amp, .semi, .bar, .lparen, .rparen]) :
    (∃ ts' s', ts = u :: ts' ∧ peek buf es [u.first] s = (true, s') ∧ Lexes buf es s' ts ∧
      Lexes buf es (gettoken buf es s').s ts') ∨
      (ts.head? ≠ some u ∧ ∃ s', peek buf es [u.first] s = (false, s') ∧ Lexes buf es s' ts) := by
  have hsub : ∀ c ∈ [u.first], c ∈ symbols := by
    simp only [List.mem_cons, List.not_mem_nil, or_false] at hu
    rcases hu with rfl | rfl | rfl | rfl | rfl <;> simp [symbols, Token.first, Token.ret]
  by_cases hhead : ts.head? = some u
  · obtain ⟨ts', rfl⟩ : ∃ ts', ts = u :: ts' := by
      cases ts with
      | nil => cases hhead
      | cons t ts => exact ⟨ts, by rw [Option.some.inj hhead]⟩
    obtain ⟨s', hpeek, hlex⟩ := peek_true hend h [u.first] hsub (List.mem_singleton_self _)
    exact .inl ⟨ts', s', rfl, hpeek, hlex, (gettoken_spec hend hlex).2.1⟩
  · refine .inr ⟨hhead, peek_false hend h [u.first] hsub fun t ht hmem => hhead (ht.trans ?_)⟩
    rw [eq_of_first hu (List.mem_singleton.mp hmem)]

theorem parsebacks_stop (h : Lexes buf es s ts) (hstop : ts.head? ≠ some .amp) :
    ∃ s', Lexes buf es s' ts ∧ ∀ c fuel, parsebacks buf es (fuel + 1) c s = pure (c, s') := by
  obtain ⟨ts', _, rfl, -⟩ | ⟨-, s', hpeek, hlex⟩ := peek_symbol (u := .amp) hend h (by decide)
  · exact absurd rfl hstop
  · refine ⟨s', hlex, fun c fuel => ?_⟩
    rw [parsebacks, show ['&'] = [Token.amp.first] from rfl, hpeek]
    rfl

theorem parsebacks_next (h : Lexes buf es s (.amp :: ts)) :
    ∃ s', Lexes buf es s' ts ∧ ∀ c fuel, parsebacks buf es (fuel + 1) c s = parsebacks buf es fuel (.back c) s' := by
  obtain ⟨ts', s', heq, hpeek, -, hlex⟩ | ⟨hne, -⟩ := peek_symbol (u := .amp) hend h (by decide)
  · obtain rfl : ts = ts' := (List.cons.inj heq).2
    refine ⟨_, hlex, fun c fuel => ?_⟩
    rw [parsebacks, show ['&'] = [Token.amp.first] from rfl, hpeek]
    rfl
  · exact absurd rfl hne

theorem backs_settle (h : Lexes buf es s ts) (c : Cmd) :
    Settles (fun fuel => parsebacks buf es fuel c s)
      (fun r => ∃ n vs, ts = List.replicate n .amp ++ vs ∧ r.1 = Cmd.back^[n] c ∧ Lexes buf es r.2 vs) := by
  induction ts generalizing s c with
  | nil =>
    obtain ⟨s', hlex, heq⟩ := parsebacks_stop hend h (by simp)
    exact (Settles.pure ⟨0, [], rfl, rfl, hlex⟩).turn (heq c)
  | cons t ts ih =>
    by_cases hamp : t = .amp
    · subst hamp
      obtain ⟨s', hlex, heq⟩ := parsebacks_next hend h
      refine ((ih hlex (.back c)).turn (heq c)).mono ?_
      rintro r ⟨n, vs, rfl, hc, hlex'⟩
      exact ⟨n + 1, vs, rfl, hc, hlex'⟩
    · obtain ⟨s', hlex, heq⟩ := parsebacks_stop hend h (fun hc => hamp (Option.some.inj hc))
      exact (Settles.pure ⟨0, t :: ts, rfl, rfl, hlex⟩).turn (heq c)

theorem backs_derive (h : Lexes buf es s (List.replicate n .amp ++ vs)) (hstop : vs.head? ≠ some .amp) (c : Cmd) :
    ∃ s', Lexes buf es s' vs ∧ Returns (fun fuel => parsebacks buf es fuel c s) (.ok (Cmd.back^[n] c, s')) := by
  induction n generalizing s c with
  | zero =>
    obtain ⟨s', hlex, heq⟩ := parsebacks_stop hend h hstop
    exact ⟨s', hlex, (Returns.const _).turn (heq c)⟩
  | succ n ih =>
    obtain ⟨s', hlex, heq⟩ := parsebacks_next hend h
    obtain ⟨s'', hlex', hret⟩ := ih hlex (.back c)
    exact ⟨s'', hlex', hret.turn (heq c)⟩

end

/-! ## The parser returns derivations -/

/-- What has been read is derived, and the rest is next. -/
def Read (buf : List Char) (es : Nat) (nt : Nonterminal) (ts : List Token) (r : Cmd × Nat) : Prop :=
  ∃ us vs, ts = us ++ vs ∧ Derives nt us r.1 ∧ Lexes buf es r.2 vs

section
variable (hend : Terminated buf es)
include hend

/-- A line that is shorter than the tokens. -/
theorem line_settle
    (ih : ∀ {s' ts'}, ts'.length < ts.length → Lexes buf es s' ts' →
      Settles (fun fuel => parseline buf es fuel s') (Read buf es .line ts'))
    (hpipe : Settles (fun fuel => parsepipe buf es fuel s) (Read buf es .pipe ts)) :
    Settles (fun fuel => parseline buf es fuel s) (Read buf es .line ts) := by
  refine Settles.turn ?_ (fun fuel => parseline.eq_2 buf es s fuel)
  refine hpipe.bind ?_
  rintro ⟨c, s₁⟩ ⟨us, vs, rfl, hc, hlex⟩
  refine (backs_settle hend hlex c).bind ?_
  rintro ⟨d, s₂⟩ ⟨n, ws, rfl, hd, hlex⟩
  change d = _ at hd
  subst hd
  obtain ⟨ws', s₃, rfl, hpeek, -, hlex⟩ | ⟨-, s₃, hpeek, hlex⟩ := peek_symbol (u := .semi) hend hlex (by decide)
  · change peek buf es [';'] s₂ = _ at hpeek
    dsimp only
    rw [hpeek]
    refine (ih ?_ hlex).bind ?_
    · simp only [List.length_append, List.length_cons]
      omega
    · rintro ⟨e, s₄⟩ ⟨us', vs', rfl, he, hlex⟩
      refine Settles.pure ⟨us ++ List.replicate n .amp ++ .semi :: us', vs', ?_, .list hc he, hlex⟩
      simp only [List.append_assoc, List.cons_append]
  · change peek buf es [';'] s₂ = _ at hpeek
    dsimp only
    rw [hpeek]
    exact Settles.pure ⟨us ++ List.replicate n .amp, ws, (List.append_assoc ..).symm, .line hc, hlex⟩

theorem pipe_settle
    (ih : ∀ {s' ts'}, ts'.length < ts.length → Lexes buf es s' ts' →
      Settles (fun fuel => parsepipe buf es fuel s') (Read buf es .pipe ts'))
    (hexec : Settles (fun fuel => parseexec buf es fuel s) (Read buf es .exec ts)) :
    Settles (fun fuel => parsepipe buf es fuel s) (Read buf es .pipe ts) := by
  refine Settles.turn ?_ (fun fuel => parsepipe.eq_2 buf es s fuel)
  refine hexec.bind ?_
  rintro ⟨c, s₁⟩ ⟨us, vs, rfl, hc, hlex⟩
  obtain ⟨ws', s₂, rfl, hpeek, -, hlex⟩ | ⟨-, s₂, hpeek, hlex⟩ := peek_symbol (u := .bar) hend hlex (by decide)
  · change peek buf es ['|'] s₁ = _ at hpeek
    dsimp only
    rw [hpeek]
    refine (ih ?_ hlex).bind ?_
    · simp only [List.length_append, List.length_cons]
      omega
    · rintro ⟨e, s₃⟩ ⟨us', vs', rfl, he, hlex⟩
      refine Settles.pure ⟨us ++ .bar :: us', vs', ?_, .pipe hc he, hlex⟩
      simp only [List.append_assoc, List.cons_append]
  · change peek buf es ['|'] s₁ = _ at hpeek
    dsimp only
    rw [hpeek]
    exact Settles.pure ⟨us, vs, rfl, .exec hc, hlex⟩

theorem block_settle (h : Lexes buf es s (.lparen :: ts))
    (ih : ∀ {s'}, Lexes buf es s' ts → Settles (fun fuel => parseline buf es fuel s') (Read buf es .line ts)) :
    Settles (fun fuel => parseblock buf es fuel s) (Read buf es .exec (.lparen :: ts)) := by
  refine Settles.turn ?_ (fun fuel => parseblock.eq_2 buf es s fuel)
  obtain ⟨ts', s₁, heq, hpeek, -, hlex⟩ | ⟨hne, -⟩ := peek_symbol (u := .lparen) hend h (by decide)
  · change peek buf es ['('] s = _ at hpeek
    obtain rfl : ts = ts' := (List.cons.inj heq).2
    rw [hpeek]
    refine (ih hlex).bind ?_
    rintro ⟨c, s₂⟩ ⟨us, vs, rfl, hc, hlex⟩
    obtain ⟨ws, s₃, rfl, hpeek, -, hlex⟩ | ⟨-, s₃, hpeek, -⟩ := peek_symbol (u := .rparen) hend hlex (by decide)
    · change peek buf es [')'] s₂ = _ at hpeek
      dsimp only
      rw [hpeek]
      refine (redirs_settle hend hlex c).mono ?_
      rintro ⟨d, s₄⟩ ⟨us', vs', rs, rfl, hr, hd, hlex⟩
      change d = _ at hd
      subst hd
      refine ⟨.lparen :: (us ++ .rparen :: us'), vs', ?_, .block hc hr, hlex⟩
      simp only [List.append_assoc, List.cons_append]
    · change peek buf es [')'] s₂ = _ at hpeek
      dsimp only
      rw [hpeek]
      exact Settles.throw "syntax - missing )"
  · exact absurd rfl hne

theorem exec_settle (h : Lexes buf es s ts)
    (ih : ∀ {s' ts'}, ts'.length < ts.length → Lexes buf es s' ts' →
      Settles (fun fuel => parseline buf es fuel s') (Read buf es .line ts')) :
    Settles (fun fuel => parseexec buf es fuel s) (Read buf es .exec ts) := by
  refine Settles.turn ?_ (fun fuel => parseexec.eq_2 buf es s fuel)
  obtain ⟨ts', s₁, rfl, hpeek, hlex, -⟩ | ⟨-, s₁, hpeek, hlex⟩ := peek_symbol (u := .lparen) hend h (by decide)
  · change peek buf es ['('] s = _ at hpeek
    rw [hpeek]
    exact block_settle hend hlex (ih (Nat.lt_succ_self _))
  · change peek buf es ['('] s = _ at hpeek
    rw [hpeek]
    refine (redirs_settle hend hlex (.exec [])).bind ?_
    rintro ⟨c, s₂⟩ ⟨us, vs, rs, rfl, hr, hc, hlex⟩
    change c = _ at hc
    subst hc
    refine (args_settle [] hend hlex (Nat.zero_le 9)).mono ?_
    rintro ⟨d, s₃⟩ ⟨us', vs', argv, rs', rfl, hargs, hle, hd, hlex⟩
    change d = _ at hd
    subst hd
    exact ⟨us ++ us', vs', (List.append_assoc ..).symm, .words hr hargs hle, hlex⟩

/-- **The parser ends**, with a panic or with a command that is derived from the tokens it has read. -/
theorem line_settles (h : Lexes buf es s ts) :
    Settles (fun fuel => parseline buf es fuel s) (Read buf es .line ts) ∧
      Settles (fun fuel => parsepipe buf es fuel s) (Read buf es .pipe ts) := by
  induction hn : ts.length using Nat.strong_induction_on generalizing s ts with
  | _ n ih =>
    subst hn
    have hexec := exec_settle hend h fun hlt hlex => (ih _ hlt hlex rfl).1
    have hpipe := pipe_settle hend (fun hlt hlex => (ih _ hlt hlex rfl).2) hexec
    exact ⟨line_settle hend (fun hlt hlex => (ih _ hlt hlex rfl).1) hpipe, hpipe⟩

end

/-! ## The parser finds every derivation -/

def parse (buf : List Char) (es : Nat) : Nonterminal → Nat → Nat → Parse (Cmd × Nat)
  | .line => parseline buf es
  | .pipe => parsepipe buf es
  | .exec => parseexec buf es

/-- The tokens that may come next. -/
def follow : Nonterminal → List Token
  | .line => [.rparen]
  | .pipe => [.rparen, .amp, .semi]
  | .exec => [.rparen, .amp, .semi, .bar]

theorem head_replicate {l : List Token} (hl : ∀ t ∈ vs.head?, t ∈ l) (hamp : Token.amp ∈ l) :
    ∀ t ∈ (List.replicate n Token.amp ++ vs).head?, t ∈ l := by
  cases n with
  | zero => exact hl
  | succ n => exact fun t ht => Option.some.inj ht ▸ hamp

theorem ne_of_follow {l : List Token} (hl : ∀ t ∈ vs.head?, t ∈ l) (hu : u ∉ l) : vs.head? ≠ some u :=
  fun hc => hu (hl u hc)

section
variable (hend : Terminated buf es)
include hend

theorem line_derive
    (hpipe : ∃ s', Lexes buf es s' (List.replicate n .amp ++ vs) ∧
      Returns (fun fuel => parsepipe buf es fuel s) (.ok (c, s')))
    (hamp : vs.head? ≠ some .amp) (hsemi : vs.head? ≠ some .semi) :
    ∃ s', Lexes buf es s' vs ∧ Returns (fun fuel => parseline buf es fuel s) (.ok (Cmd.back^[n] c, s')) := by
  obtain ⟨s₁, hlex, hpipe⟩ := hpipe
  obtain ⟨s₂, hlex, hbacks⟩ := backs_derive hend hlex hamp c
  obtain ⟨_, _, rfl, -⟩ | ⟨-, s₃, hpeek, hlex⟩ := peek_symbol (u := .semi) hend hlex (by decide)
  · exact absurd rfl hsemi
  · change peek buf es [';'] s₂ = _ at hpeek
    refine ⟨s₃, hlex, Returns.turn (hpipe.bind (hbacks.bind ?_)) (fun fuel => parseline.eq_2 buf es s fuel)⟩
    dsimp only
    rw [hpeek]
    exact Returns.const _

theorem list_derive {d : Cmd}
    (hpipe : ∃ s', Lexes buf es s' (List.replicate n .amp ++ .semi :: us) ∧
      Returns (fun fuel => parsepipe buf es fuel s) (.ok (c, s')))
    (hline : ∀ {s'}, Lexes buf es s' us → ∃ s'', Lexes buf es s'' vs ∧
      Returns (fun fuel => parseline buf es fuel s') (.ok (d, s''))) :
    ∃ s', Lexes buf es s' vs ∧ Returns (fun fuel => parseline buf es fuel s) (.ok (.list (Cmd.back^[n] c) d, s')) := by
  obtain ⟨s₁, hlex, hpipe⟩ := hpipe
  obtain ⟨s₂, hlex, hbacks⟩ := backs_derive hend hlex (by simp) c
  obtain ⟨us', s₃, heq, hpeek, -, hlex⟩ | ⟨hne, -⟩ := peek_symbol (u := .semi) hend hlex (by decide)
  · change peek buf es [';'] s₂ = _ at hpeek
    obtain rfl : us = us' := (List.cons.inj heq).2
    obtain ⟨s₄, hlex, hline⟩ := hline hlex
    refine ⟨s₄, hlex, Returns.turn (hpipe.bind (hbacks.bind ?_)) (fun fuel => parseline.eq_2 buf es s fuel)⟩
    dsimp only
    rw [hpeek]
    exact hline.bind (Returns.const _)
  · exact absurd rfl hne

theorem pipe_derive {d : Cmd}
    (hexec : ∃ s', Lexes buf es s' (.bar :: us) ∧ Returns (fun fuel => parseexec buf es fuel s) (.ok (c, s')))
    (hpipe : ∀ {s'}, Lexes buf es s' us → ∃ s'', Lexes buf es s'' vs ∧
      Returns (fun fuel => parsepipe buf es fuel s') (.ok (d, s''))) :
    ∃ s', Lexes buf es s' vs ∧ Returns (fun fuel => parsepipe buf es fuel s) (.ok (.pipe c d, s')) := by
  obtain ⟨s₁, hlex, hexec⟩ := hexec
  obtain ⟨us', s₂, heq, hpeek, -, hlex⟩ | ⟨hne, -⟩ := peek_symbol (u := .bar) hend hlex (by decide)
  · change peek buf es ['|'] s₁ = _ at hpeek
    obtain rfl : us = us' := (List.cons.inj heq).2
    obtain ⟨s₃, hlex, hpipe⟩ := hpipe hlex
    refine ⟨s₃, hlex, Returns.turn (hexec.bind ?_) (fun fuel => parsepipe.eq_2 buf es s fuel)⟩
    dsimp only
    rw [hpeek]
    exact hpipe.bind (Returns.const _)
  · exact absurd rfl hne

theorem exec_derive (hexec : ∃ s', Lexes buf es s' vs ∧ Returns (fun fuel => parseexec buf es fuel s) (.ok (c, s')))
    (hbar : vs.head? ≠ some .bar) :
    ∃ s', Lexes buf es s' vs ∧ Returns (fun fuel => parsepipe buf es fuel s) (.ok (c, s')) := by
  obtain ⟨s₁, hlex, hexec⟩ := hexec
  obtain ⟨_, _, rfl, -⟩ | ⟨-, s₂, hpeek, hlex⟩ := peek_symbol (u := .bar) hend hlex (by decide)
  · exact absurd rfl hbar
  · change peek buf es ['|'] s₁ = _ at hpeek
    refine ⟨s₂, hlex, Returns.turn (hexec.bind ?_) (fun fuel => parsepipe.eq_2 buf es s fuel)⟩
    dsimp only
    rw [hpeek]
    exact Returns.const _

theorem block_derive (hr : Redirs us rs) (h : Lexes buf es s (.lparen :: ts))
    (hline : ∀ {s'}, Lexes buf es s' ts → ∃ s'', Lexes buf es s'' (.rparen :: (us ++ vs)) ∧
      Returns (fun fuel => parseline buf es fuel s') (.ok (c, s'')))
    (hopen : ∀ t ∈ vs.head?, t.opens = none) :
    ∃ s', Lexes buf es s' vs ∧ Returns (fun fuel => parseexec buf es fuel s) (.ok (c.wrap rs, s')) := by
  obtain ⟨ts', s₁, heq, hpeek, hlex, -⟩ | ⟨hne, -⟩ := peek_symbol (u := .lparen) hend h (by decide)
  · obtain ⟨ts'', s₂, heq', hpeek', -, hlex⟩ | ⟨hne, -⟩ := peek_symbol (u := .lparen) hend hlex (by decide)
    · change peek buf es ['('] s = _ at hpeek
      change peek buf es ['('] s₁ = _ at hpeek'
      obtain rfl : ts = ts'' := (List.cons.inj heq').2
      obtain ⟨s₃, hlex, hline⟩ := hline hlex
      obtain ⟨ws, s₄, heq'', hpeek'', -, hlex⟩ | ⟨hne, -⟩ := peek_symbol (u := .rparen) hend hlex (by decide)
      · change peek buf es [')'] s₃ = _ at hpeek''
        obtain rfl : us ++ vs = ws := (List.cons.inj heq'').2
        obtain ⟨s₅, hlex, hredirs⟩ := redirs_derive hend hr hlex hopen c
        have hblock : Returns (fun fuel => parseblock buf es fuel s₁) (.ok (c.wrap rs, s₅)) := by
          refine Returns.turn ?_ (fun fuel => parseblock.eq_2 buf es s₁ fuel)
          rw [hpeek']
          refine hline.bind ?_
          dsimp only
          rw [hpeek'']
          exact hredirs
        refine ⟨s₅, hlex, Returns.turn ?_ (fun fuel => parseexec.eq_2 buf es s fuel)⟩
        rw [hpeek]
        exact hblock
      · exact absurd rfl hne
    · exact absurd rfl hne
  · exact absurd rfl hne

theorem words_derive {argv : List (Nat × Nat)} (hr : Redirs ts rs) (ha : Args us argv rs') (hlen : argv.length ≤ 9)
    (h : Lexes buf es s (ts ++ (us ++ vs))) (hends : ∀ t ∈ vs.head?, t.ends) :
    ∃ s', Lexes buf es s' vs ∧
      Returns (fun fuel => parseexec buf es fuel s) (.ok ((Cmd.exec argv).wrap (rs ++ rs'), s')) := by
  have hparen : (ts ++ (us ++ vs)).head? ≠ some .lparen := by
    cases hr with
    | nil =>
      cases ha with
      | nil => exact fun hc => absurd (hends _ hc) (by decide)
      | cons _ _ => simp
    | cons hopen _ =>
      intro hc
      rw [Option.some.inj hc] at hopen
      cases hopen
  obtain ⟨_, _, heq, -⟩ | ⟨-, s₁, hpeek, hlex⟩ := peek_symbol (u := .lparen) hend h (by decide)
  · rw [heq] at hparen
    exact absurd rfl hparen
  · change peek buf es ['('] s = _ at hpeek
    have hnext : ∀ t ∈ (us ++ vs).head?, t.opens = none := by
      cases ha with
      | nil => exact fun t ht => opens_of_ends (hends t ht)
      | cons _ _ => exact fun t ht => Option.some.inj ht ▸ rfl
    obtain ⟨s₂, hlex, hredirs⟩ := redirs_derive hend hr hlex hnext (.exec [])
    obtain ⟨s₃, hlex, hargs⟩ := args_derive [] hend ha hlex hends hlen
    refine ⟨s₃, hlex, Returns.turn ?_ (fun fuel => parseexec.eq_2 buf es s fuel)⟩
    rw [hpeek]
    exact hredirs.bind hargs

/-- **Every derivation is found**, if what comes next may follow it. -/
theorem parse_derives {nt : Nonterminal} (hd : Derives nt us c) (h : Lexes buf es s (us ++ vs))
    (hnext : ∀ t ∈ vs.head?, t ∈ follow nt) :
    ∃ s', Lexes buf es s' vs ∧ Returns (fun fuel => parse buf es nt fuel s) (.ok (c, s')) := by
  have hexec : ∀ t ∈ follow .exec, t.ends := by decide
  induction hd generalizing s vs with
  | line _ ih =>
    rw [List.append_assoc] at h
    have hsub : ∀ t ∈ vs.head?, t ∈ follow .pipe :=
      fun t ht => (by decide : ∀ t ∈ follow .line, t ∈ follow .pipe) t (hnext t ht)
    exact line_derive hend (ih h (head_replicate hsub (by decide))) (ne_of_follow hnext (by decide))
      (ne_of_follow hnext (by decide))
  | @list _ _ us _ _ _ _ ih ih' =>
    rw [List.append_assoc, List.append_assoc] at h
    have hsemi : ∀ t ∈ (Token.semi :: us ++ vs).head?, t ∈ follow .pipe := fun t ht => Option.some.inj ht ▸ by decide
    exact list_derive hend (ih h (head_replicate hsemi (by decide))) fun hlex => ih' hlex hnext
  | exec _ ih =>
    have hsub : ∀ t ∈ vs.head?, t ∈ follow .exec :=
      fun t ht => (by decide : ∀ t ∈ follow .pipe, t ∈ follow .exec) t (hnext t ht)
    exact exec_derive hend (ih h hsub) (ne_of_follow hnext (by decide))
  | @pipe _ us _ _ _ _ ih ih' =>
    rw [List.append_assoc] at h
    have hbar : ∀ t ∈ (Token.bar :: us ++ vs).head?, t ∈ follow .exec := fun t ht => Option.some.inj ht ▸ by decide
    exact pipe_derive hend (ih h hbar) fun hlex => ih' hlex hnext
  | @block _ us _ _ _ hr ih =>
    rw [List.cons_append, List.append_assoc] at h
    have hparen : ∀ t ∈ (Token.rparen :: us ++ vs).head?, t ∈ follow .line := fun t ht => Option.some.inj ht ▸ by decide
    exact block_derive hend hr h (fun hlex => ih hlex hparen) fun t ht => opens_of_ends (hexec t (hnext t ht))
  | words hr ha hlen =>
    rw [List.append_assoc] at h
    exact words_derive hend hr ha hlen h fun t ht => hexec t (hnext t ht)

end

/-! ## The strings -/

/-- The strings of a command. -/
def Cmd.strings : Cmd → List (Nat × Nat)
  | exec argv => argv
  | redir cmd file efile _ _ => (file, efile) :: cmd.strings
  | pipe left right => left.strings ++ right.strings
  | list left right => left.strings ++ right.strings
  | back cmd => cmd.strings

/-- The text from `q` to `eq`. -/
def text (buf : List Char) (q eq : Nat) : List Char := (buf.take eq).drop q

/-- The string at `q`, up to the NUL after it. -/
def cstring (buf : List Char) (q : Nat) : List Char := (buf.drop q).takeWhile (· ≠ '\x00')

theorem mem_strings_wrap {b : Nat × Nat} (hb : b ∈ (c.wrap rs).strings) :
    b ∈ c.strings ∨ ∃ r ∈ rs, b = (r.file, r.efile) := by
  induction rs generalizing c with
  | nil => exact .inl hb
  | cons r rs ih =>
    rcases ih hb with hb | ⟨r', hr', rfl⟩
    · rcases List.mem_cons.mp hb with rfl | hb
      · exact .inr ⟨r, List.mem_cons_self, rfl⟩
      · exact .inl hb
    · exact .inr ⟨r', List.mem_cons_of_mem r hr', rfl⟩

theorem strings_backs (n : Nat) (c : Cmd) : (Cmd.back^[n] c).strings = c.strings := by
  induction n generalizing c with
  | zero => rfl
  | succ n ih => exact ih (.back c)

theorem Redirs.words (hr : Redirs us rs) : ∀ r ∈ rs, .word r.file r.efile ∈ us := by
  induction hr with
  | nil => exact fun r hr => absurd hr List.not_mem_nil
  | cons _ _ ih =>
    intro r hr
    rcases List.mem_cons.mp hr with rfl | hr
    · exact List.mem_cons_of_mem _ List.mem_cons_self
    · exact List.mem_cons_of_mem _ (List.mem_cons_of_mem _ (ih r hr))

theorem Args.words {argv : List (Nat × Nat)} (ha : Args us argv rs) :
    (∀ b ∈ argv, .word b.1 b.2 ∈ us) ∧ ∀ r ∈ rs, .word r.file r.efile ∈ us := by
  induction ha with
  | nil => exact ⟨fun b hb => absurd hb List.not_mem_nil, fun r hr => absurd hr List.not_mem_nil⟩
  | cons hr _ ih =>
    refine ⟨fun b hb => ?_, fun r hmem => ?_⟩
    · rcases List.mem_cons.mp hb with rfl | hb
      · exact List.mem_cons_self
      · exact List.mem_cons_of_mem _ (List.mem_append_right _ (ih.1 b hb))
    · rcases List.mem_append.mp hmem with hmem | hmem
      · exact List.mem_cons_of_mem _ (List.mem_append_left _ (hr.words r hmem))
      · exact List.mem_cons_of_mem _ (List.mem_append_right _ (ih.2 r hmem))

/-- The strings of a command are words of its line. -/
theorem Derives.strings_mem {nt : Nonterminal} (hd : Derives nt us c) : ∀ b ∈ c.strings, .word b.1 b.2 ∈ us := by
  induction hd with
  | line _ ih =>
    intro b hb
    rw [strings_backs] at hb
    exact List.mem_append_left _ (ih b hb)
  | list _ _ ih ih' =>
    intro b hb
    rw [Cmd.strings, strings_backs] at hb
    rcases List.mem_append.mp hb with hb | hb
    · exact List.mem_append_left _ (List.mem_append_left _ (ih b hb))
    · exact List.mem_append_right _ (List.mem_cons_of_mem _ (ih' b hb))
  | exec _ ih => exact ih
  | pipe _ _ ih ih' =>
    intro b hb
    rcases List.mem_append.mp hb with hb | hb
    · exact List.mem_append_left _ (ih b hb)
    · exact List.mem_append_right _ (List.mem_cons_of_mem _ (ih' b hb))
  | block _ hr ih =>
    intro b hb
    rcases mem_strings_wrap hb with hb | ⟨r, hmem, rfl⟩
    · exact List.mem_cons_of_mem _ (List.mem_append_left _ (ih b hb))
    · exact List.mem_cons_of_mem _ (List.mem_append_right _ (List.mem_cons_of_mem _ (hr.words r hmem)))
  | words hr ha _ =>
    intro b hb
    rcases mem_strings_wrap hb with hb | ⟨r, hmem, rfl⟩
    · exact List.mem_append_right _ (ha.words.1 b hb)
    · rcases List.mem_append.mp hmem with hmem | hmem
      · exact List.mem_append_left _ (hr.words r hmem)
      · exact List.mem_append_right _ (ha.words.2 r hmem)

theorem Lexes.wordAt (h : Lexes buf es s ts) (hmem : .word q eq ∈ ts) : WordAt buf es q eq := by
  induction h with
  | done _ => exact absurd hmem List.not_mem_nil
  | token _ hocc _ ih =>
    rcases List.mem_cons.mp hmem with rfl | hmem
    · exact hocc.word_eq.2.2
    · exact ih hmem

theorem chr_set (i j : Nat) : chr (buf.set j '\x00') i = if i = j then '\x00' else chr buf i := by
  simp only [chr, List.getD_eq_getElem?_getD, List.getElem?_set]
  split
  · next h =>
      subst h
      split <;> simp
  · next h => rw [if_neg (Ne.symm h)]

theorem chr_setAll (argv : List (Nat × Nat)) (buf : List Char) (i : Nat) :
    chr (argv.foldl (fun buf arg => buf.set arg.2 '\x00') buf) i = if i ∈ argv.map Prod.snd then '\x00'
      else chr buf i := by
  induction argv generalizing buf with
  | nil => simp
  | cons a argv ih =>
    rw [List.foldl_cons, ih, chr_set, List.map_cons]
    simp only [List.mem_cons]
    split_ifs <;> first | rfl | tauto

/-- `nulterminate()` writes to the ends of the strings only. -/
theorem chr_nulterminate (c : Cmd) (buf : List Char) (i : Nat) :
    chr (nulterminate c buf) i = if i ∈ c.strings.map Prod.snd then '\x00' else chr buf i := by
  induction c generalizing buf with
  | exec argv => exact chr_setAll argv buf i
  | redir cmd file efile _ _ ih =>
    rw [nulterminate, chr_set, ih, Cmd.strings, List.map_cons]
    simp only [List.mem_cons]
    split_ifs <;> first | rfl | tauto
  | pipe left right ihl ihr =>
    rw [nulterminate, ihr, ihl, Cmd.strings, List.map_append]
    simp only [List.mem_append]
    split_ifs <;> first | rfl | tauto
  | list left right ihl ihr =>
    rw [nulterminate, ihr, ihl, Cmd.strings, List.map_append]
    simp only [List.mem_append]
    split_ifs <;> first | rfl | tauto
  | back cmd ih =>
    rw [nulterminate, ih, Cmd.strings]

theorem length_nulterminate (c : Cmd) (buf : List Char) : (nulterminate c buf).length = buf.length := by
  induction c generalizing buf with
  | exec argv =>
    rw [nulterminate]
    induction argv generalizing buf with
    | nil => rfl
    | cons a argv ih => rw [List.foldl_cons, ih, List.length_set]
  | redir cmd file efile _ _ ih => rw [nulterminate, List.length_set, ih]
  | pipe left right ihl ihr => rw [nulterminate, ihr, ihl]
  | list left right ihl ihr => rw [nulterminate, ihr, ihl]
  | back cmd ih => rw [nulterminate, ih]

theorem cstring_eq_text {buf' : List Char} (hlen : buf'.length = buf.length) (hle : q ≤ eq) (heq : eq ≤ buf.length)
    (hsame : ∀ i, q ≤ i → i < eq → chr buf' i = chr buf i ∧ chr buf i ≠ '\x00') (hnul : chr buf' eq = '\x00') :
    cstring buf' q = text buf q eq := by
  induction hn : eq - q generalizing q with
  | zero =>
    obtain rfl : q = eq := by omega
    have htext : text buf q q = [] := by
      rw [text, List.drop_eq_nil_iff, List.length_take]
      omega
    rw [htext, cstring]
    by_cases hq : q < buf'.length
    · rw [List.drop_eq_getElem_cons hq]
      have hchr : buf'[q] = '\x00' := by
        rw [chr, List.getD_eq_getElem _ _ hq] at hnul
        exact hnul
      rw [hchr]
      rfl
    · rw [List.drop_eq_nil_iff.mpr (by omega)]
      rfl
  | succ n ih =>
    have hq : q < buf.length := by omega
    have hq' : q < buf'.length := by omega
    obtain ⟨hchr, hne⟩ := hsame q (Nat.le_refl q) (by omega)
    have hrest := ih (q := q + 1) (by omega) (fun i hi => hsame i (by omega)) (by omega)
    rw [chr, chr, List.getD_eq_getElem _ _ hq, List.getD_eq_getElem _ _ hq'] at hchr
    rw [chr, List.getD_eq_getElem _ _ hq] at hne
    have htake : q < (buf.take eq).length := by
      rw [List.length_take]
      omega
    rw [cstring, List.drop_eq_getElem_cons hq', List.takeWhile_cons_of_pos (by simpa [hchr] using hne), text,
      List.drop_eq_getElem_cons htake, List.getElem_take, hchr]
    exact congrArg _ hrest

theorem strlen_le (buf : List Char) : strlen buf ≤ buf.length := (List.takeWhile_sublist _).length_le

theorem strings_text (h : Lexes buf (strlen buf) s ts) (hd : Derives .line ts c) :
    ∀ b ∈ c.strings, cstring (nulterminate c buf) b.1 = text buf b.1 b.2 := by
  intro b hb
  have hend := strlen_terminated buf
  have hword : ∀ b ∈ c.strings, WordAt buf (strlen buf) b.1 b.2 := fun b hb => h.wordAt (hd.strings_mem b hb)
  have hw := hword b hb
  have hle := strlen_le buf
  refine cstring_eq_text (length_nulterminate c buf) (Nat.le_of_lt hw.lt) (Nat.le_trans hw.le hle)
    (fun i hi hlt => ⟨?_, ?_⟩) ?_
  · rw [chr_nulterminate, if_neg]
    intro hmem
    obtain ⟨b', hb', rfl⟩ := List.mem_map.mp hmem
    exact (hword b' hb').stop (Nat.lt_of_lt_of_le hlt hw.le) (hw.all _ hi hlt)
  · exact hend.text i (Nat.lt_of_lt_of_le hlt hw.le)
  · rw [chr_nulterminate, if_pos (List.mem_map_of_mem hb)]

/-! ## `parsecmd` -/

theorem peek_end (hend : Terminated buf es) (h : Lexes buf es s ts) : (peek buf es [] s).2 = es ↔ ts = [] := by
  have hskip := h.skip hend
  constructor
  · intro heq
    change scan isBlank buf (es - s) s = es at heq
    rw [heq] at hskip
    cases hskip with
    | done _ => rfl
    | token hb hocc _ =>
      have hle := hb.le
      have hbounds := hocc.bounds hend
      omega
  · rintro rfl
    cases h with
    | done hb => exact scan_blanks hb (Nat.le_refl es) (fun hlt => absurd hlt (Nat.lt_irrefl es))

/-- **The parser accepts its grammar.** The tokens of the string are unique; the parser ends; it returns a command
exactly for the derivations of a line from the tokens; and then each string of the command is a word of the line, in the
buffer that is left. -/
theorem parsecmd_accepts (buf : List Char) : ∃ ts,
    (Lexes buf (strlen buf) 0 ts ∧ ∀ ts', Lexes buf (strlen buf) 0 ts' → ts' = ts) ∧
    (∃ r, Returns (parsecmd buf) r) ∧
    (∀ c buf', Returns (parsecmd buf) (.ok (c, buf')) ↔ Derives .line ts c ∧ buf' = nulterminate c buf) ∧
    ∀ c buf', Returns (parsecmd buf) (.ok (c, buf')) →
      ∀ b ∈ c.strings, .word b.1 b.2 ∈ ts ∧ cstring buf' b.1 = text buf b.1 b.2 := by
  have hend := strlen_terminated buf
  obtain ⟨ts, hts⟩ := exists_lexes hend (Nat.zero_le (strlen buf)) (Nat.le_refl _)
  have hsettles : Settles (parsecmd buf) (fun r => Derives .line ts r.1 ∧ r.2 = nulterminate r.1 buf) := by
    refine (line_settles hend hts).1.bind ?_
    rintro ⟨c, s⟩ ⟨us, vs, rfl, hc, hlex⟩
    dsimp only
    by_cases hvs : vs = []
    · subst hvs
      rw [if_neg (fun hne => hne ((peek_end hend hlex).mpr rfl)), List.append_nil]
      exact Settles.pure ⟨hc, rfl⟩
    · rw [if_pos (fun heq => hvs ((peek_end hend hlex).mp heq))]
      exact Settles.throw "syntax"
  obtain ⟨r, hr, hok⟩ := hsettles
  have hiff : ∀ c buf', Returns (parsecmd buf) (.ok (c, buf')) ↔ Derives .line ts c ∧ buf' = nulterminate c buf := by
    refine fun c buf' => ⟨fun hret => hok (c, buf') (hr.unique hret), ?_⟩
    rintro ⟨hd, rfl⟩
    rw [← List.append_nil ts] at hts
    obtain ⟨s, hlex, hret⟩ := parse_derives hend hd hts (fun t ht => nomatch ht)
    refine Returns.bind hret ?_
    dsimp only
    rw [if_neg (fun hne => hne ((peek_end hend hlex).mpr rfl))]
    exact Returns.const _
  refine ⟨ts, ⟨hts, fun ts' hts' => hts'.unique hend hts⟩, ⟨r, hr⟩, hiff, fun c buf' hret b hb => ?_⟩
  obtain ⟨hd, rfl⟩ := (hiff c buf').mp hret
  exact ⟨hd.strings_mem b hb, strings_text hts hd b hb⟩

end

end Xv6.User.Shell
