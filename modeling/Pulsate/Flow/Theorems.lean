import Pulsate.Flow.Lemmas.Places
import Pulsate.Flow.Units

/-!
# The lexer, the parser and the values
-/

namespace Pulsate.Flow

open List Lib

/-! ## The lexer returns -/

/-- The lexer returns tokens or a diagnostic, unless a backslash in a string literal stands before a character of several
bytes: it takes one byte of the character, and the slice that follows starts inside it. -/
theorem lex_returns_iff (text : Str) :
    ((∃ tokens, Lexer.Checked.lex text = .ok tokens) ∨ ∃ d, Lexer.Checked.lex text = .error (.diag d)) ↔
      hasWideEscape .gap text = false := by
  rw [Lexer.Checked.lex_eq]
  have hagrees := lex_agrees text
  constructor
  · rintro (⟨tokens, h⟩ | ⟨d, h⟩)
    · rw [h] at hagrees
      exact hagrees.1
    · rw [h] at hagrees
      exact hagrees.1
  · intro hwide
    match hlex : lex text, hagrees with
    | .ok tokens, _ => exact .inl ⟨tokens, rfl⟩
    | .error (.diag d), _ => exact .inr ⟨d, rfl⟩
    | .error .panic, h =>
      rw [Agrees, hwide] at h
      cases h

theorem escaped_umlaut_panics : Lexer.Checked.lex "\"\\é\"" = .error .panic := by
  decide

/-! ## Token streams -/

/-- The tokens of a text that lexes partition it. Their lines are right as long as they can be counted in 32 bits. -/
theorem soundStream_iff {text : Str} {tokens : List Token} (h : lex text = .ok tokens) :
    (IsPartition text tokens ∧ HasLines text tokens) ↔ 1 + text.count '\n' < 2 ^ 32 := by
  rw [lex_hasLines_iff h |>.symm]
  exact and_iff_right (lex_isPartition h)

theorem soundStream_site :
    ∃ tokens, lex "site a.b \x7b\n  # c\n\x7d".toList = .ok tokens ∧
      ((IsPartition "site a.b \x7b\n  # c\n\x7d".toList tokens ∧ HasLines "site a.b \x7b\n  # c\n\x7d".toList tokens) ↔
        1 + "site a.b \x7b\n  # c\n\x7d".toList.count '\n' < 2 ^ 32) :=
  ⟨_, rfl, soundStream_iff rfl⟩

theorem lex_breaks (n : Nat) : ∃ tokens, lex ('\n' :: (List.replicate n '\n' ++ ['a'])) = .ok tokens := by
  have hkinds : kinds ('\n' :: (List.replicate n '\n' ++ ['a'])) = some [.sep, .atom ['a'], .eof] := by
    have hnext : nextKind 'a' [] = some (.atom ['a'], []) := rfl
    rw [kinds_break (fun c hc => by rw [eq_of_mem_replicate hc]; rfl) (starts_cons rfl (by decide)),
      kinds_token rfl (by decide) rfl, hnext, Option.bind_some, kinds_nil]
    rfl
  obtain ⟨tokens, h, -⟩ := map_eq_ok.mp (lex_map_eq_ok.mpr hkinds)
  exact ⟨tokens, h⟩

/-- The line wraps behind 4294967295 line breaks. -/
theorem lines_wrap : ∃ tokens, lex ('\n' :: (List.replicate 4294967294 '\n' ++ ['a'])) = .ok tokens ∧
    ¬ HasLines ('\n' :: (List.replicate 4294967294 '\n' ++ ['a'])) tokens := by
  obtain ⟨tokens, h⟩ := lex_breaks 4294967294
  refine ⟨tokens, h, ?_⟩
  rw [lex_hasLines_iff h, count_cons_self, count_append, count_replicate_self]
  omega

/-! ## Reading ends -/

/-- A tree or a diagnostic comes of every text, or the panic of the lexer where a string literal has an escaped character of
several bytes: no step bound of the model is ever reached. -/
theorem parse_ends (text : Str) : if hasWideEscape .gap text then parse text = .error .panic
    else (∃ ast, parse text = .ok ast) ∨ ∃ d, parse text = .error (.diag d) := by
  rw [parse]
  match hlex : lex text, lex_agrees text with
  | .error .panic, hwide => exact (if_pos hwide).mpr rfl
  | .error (.diag d), ⟨hwide, _⟩ =>
    rw [hwide]
    exact .inr ⟨d, rfl⟩
  | .ok tokens, ⟨hwide, _⟩ =>
    rw [hwide]
    have hends := lex_endsOnce hlex
    obtain ⟨hrun, hfuel⟩ := (parseTokens_parses tokens).resolve_left (hends.not_stuck _)
    have hpanic := Machine.run_ne_panic hends [.stmts false]
    rw [hrun] at hpanic
    match hres : parseTokens tokens with
    | .ok ast => exact .inl ⟨ast, hres⟩
    | .error (.diag d) => exact .inr ⟨d, hres⟩
    | .error .panic => exact absurd (congrArg _ hres) hpanic
    | .error .outOfFuel => exact absurd hres hfuel

/-! ## The parser is faithful -/

/-- The tree of a text is printed as the tokens of the text, and its spans are nested. -/
theorem faithful {text : Str} {ast : Ast} (h : parse text = .ok ast) :
    ∃ tokens, lex text = .ok tokens ∧ ast.Prints (significant tokens) ∧ ast.IsNested := by
  obtain ⟨tokens, hlex, hast⟩ := bind_eq_ok.mp h
  have hends := lex_endsOnce hlex
  obtain ⟨c, e, rfl, he, hreads⟩ := parseTokens_reads hends hast
  obtain ⟨hspans, hnested⟩ := hreads.spans (lex_sorted hlex hends.left)
  refine ⟨_, hlex, ⟨significant c, hreads.prints, ?_⟩, hspans.inOrder, hnested⟩
  rw [significant_append, significant_cons [] he (by simp)]
  rfl

theorem faithful_site :
    ∃ ast, parse "site a.b \x7b\n  tls [a, b]\n  route /x [method=GET] ~> f\n\x7d" = .ok ast ∧
      ∃ tokens, lex "site a.b \x7b\n  tls [a, b]\n  route /x [method=GET] ~> f\n\x7d" = .ok tokens ∧
        ast.Prints (significant tokens) ∧ ast.IsNested := by
  have h : (parse "site a.b \x7b\n  tls [a, b]\n  route /x [method=GET] ~> f\n\x7d").toOption.isSome := by
    decide +kernel
  obtain ⟨ast, hast⟩ := Option.isSome_iff_exists.mp h
  exact ⟨ast, toOption_eq_some.mp hast, faithful (toOption_eq_some.mp hast)⟩

/-! ## Syntax errors -/

/-- A token list that is not accepted is refused at the first token that no accepted list has behind the tokens before it. -/
theorem refused_at {tokens : List Token} (h : EndsOnce tokens) (hrefused : ∀ ast, parseTokens tokens ≠ .ok ast) :
    ∃ d pre t post, parseTokens tokens = .error (.diag d) ∧ tokens = pre ++ t :: post ∧ d.span = t.span ∧
      (∃ more ast, parseTokens (pre ++ more) = .ok ast) ∧ ∀ more ast, parseTokens (pre ++ t :: more) ≠ .ok ast := by
  have hrun := run_eq_of_endsOnce h
  cases hparse : parseTokens tokens with
  | ok ast => exact absurd hparse (hrefused ast)
  | error e =>
    rw [hparse] at hrun
    obtain rfl | ⟨d, rfl⟩ := Machine.run_error hrun
    · exact absurd hrun (Machine.run_ne_panic h _)
    obtain ⟨pre, t, post, stack, rfl, hspan, hstack, hread, hfail⟩ := Machine.run_fails stacked_start hrun
    refine ⟨d, pre, t, post, rfl, rfl, hspan, ?_, ?_⟩
    · have hends : EndsOnce (pre ++ Machine.completion stack) :=
        EndsOnce.append h.left (Machine.completion_endsOnce hstack)
      have hok := run_eq_of_endsOnce hends
      rw [hread, Machine.run_completion hstack] at hok
      obtain ⟨ast, hast, -⟩ := map_eq_ok.mp hok.symm
      exact ⟨_, ast, hast⟩
    · exact fun more ast => parseTokens_ne_ok (hfail more) ast

/-- A brace that closes nothing. -/
theorem refused_at_brace :
    ∃ d pre t post, parseTokens [⟨.atom ['a'], ⟨0, 1, 1, 1⟩⟩, ⟨.rBrace, ⟨1, 1, 1, 2⟩⟩, ⟨.eof, ⟨2, 0, 1, 3⟩⟩] = .error (.diag d) ∧
      [⟨.atom ['a'], ⟨0, 1, 1, 1⟩⟩, ⟨.rBrace, ⟨1, 1, 1, 2⟩⟩, ⟨.eof, ⟨2, 0, 1, 3⟩⟩] = pre ++ t :: post ∧ d.span = t.span ∧
      (∃ more ast, parseTokens (pre ++ more) = .ok ast) ∧ ∀ more ast, parseTokens (pre ++ t :: more) ≠ .ok ast :=
  refused_at ⟨[⟨.atom ['a'], ⟨0, 1, 1, 1⟩⟩, ⟨.rBrace, ⟨1, 1, 1, 2⟩⟩], ⟨.eof, ⟨2, 0, 1, 3⟩⟩, rfl, rfl, by decide⟩
    (by rintro ast ⟨⟩)

/-! ## Places -/

/-- Columns are counted in bytes, so they are right where the line before them has characters of one byte only, and lines and
columns are counted in 32 bits. -/
theorem located_iff (text : Str) : Located text ↔ ∀ pre ∈ reported text, Countable pre := by
  constructor
  · rintro ⟨htokens, hdiags⟩ pre hpre
    obtain ⟨rest, hrest⟩ := reported_parts hpre
    cases hlex : lex text with
    | ok tokens =>
      obtain ⟨t, ht, body, hspan⟩ := exists_right_of_forall₂ (span_reported hlex).flip hpre
      have hlocated := htokens tokens hlex t ht
      rw [hspan, hrest] at hlocated
      exact (isLocated_iff body).mp hlocated
    | error e =>
      have hagrees := lex_agrees text
      rw [hlex] at hagrees
      match e, hagrees with
      | .diag d, _ =>
        obtain ⟨p, body, hp, hspan⟩ := diag_reported hlex
        rw [hp, mem_singleton] at hpre
        subst hpre
        have hlocated := (hdiags d (by rw [parse, hlex]; rfl)).1
        rw [hspan, hrest] at hlocated
        exact (isLocated_iff body).mp hlocated
      | .panic, hpanic =>
        have hwide : hasWideEscape .gap text := hpanic
        rw [reported, if_pos hwide] at hpre
        cases hpre
  · intro h
    constructor
    · intro tokens hlex t ht
      obtain ⟨p, hp, body, hspan⟩ := exists_right_of_forall₂ (span_reported hlex) ht
      obtain ⟨rest, hrest⟩ := reported_parts hp
      rw [hspan, hrest]
      exact (isLocated_iff body).mpr (h p hp)
    · intro d hd
      obtain ⟨p, hp, body, hspan⟩ := parse_reported hd
      obtain ⟨rest, hrest⟩ := reported_parts hp
      have hat : d.span.IsAt p := by
        rw [hspan]
        exact (spanAt_isAt_iff p body).mpr (h p hp)
      rw [hrest]
      exact ⟨⟨p, rest, rfl, hat⟩, fun name => pointsInto_of_isAt name hat⟩

/-- The column of the token behind an umlaut. -/
theorem column_of_umlaut : lex "\"é\" a".toList = .ok [⟨.str ['é'], ⟨0, 4, 1, 1⟩⟩, ⟨.atom ['a'], ⟨5, 1, 1, 6⟩⟩, ⟨.eof, ⟨6, 0, 1, 7⟩⟩] ∧
    ¬ Span.IsLocated ⟨5, 1, 1, 6⟩ "\"é\" a".toList := by
  constructor
  · decide
  · have hspan : (⟨5, 1, 1, 6⟩ : Span) = spanAt "\"é\" ".toList "a".toList := by decide
    have htext : "\"é\" a".toList = "\"é\" ".toList ++ "a".toList := by decide
    rw [hspan, htext, isLocated_iff]
    unfold Countable
    decide

/-! ## Quoting -/

/-- Every string can be quoted, and two quoted strings are read as the two strings. -/
theorem lex_quoted (s t : Str) :
    (lex (quoted s)).map (·.map Token.kind) = .ok [.str s, .eof] ∧
      (lex (quoted s ++ ' ' :: quoted t)).map (·.map Token.kind) = .ok [.str s, .str t, .eof] := by
  have hquoted (s : Str) : kinds (quoted s) = some [.str s, .eof] := by
    rw [← append_nil (quoted s), kinds_quoted, kinds_nil]
    rfl
  constructor
  · rw [lex_map_eq_ok, hquoted]
  · rw [lex_map_eq_ok, kinds_quoted, kinds_horizontal rfl, hquoted]
    rfl

/-! ## Units -/

/-- A duration is the product of its number and its unit, or an error where one of them does not fit, unless the product of
a number of minutes, hours or days that fits is too large: then it is the largest number of seconds. A size always is. No
other texts are durations or sizes, apart from sizes without a unit. -/
theorem unitsExact_iff (n : Numeral) :
    (∀ u : TimeUnit, DurationExact n u ↔ (n.value < 2 ^ 64 → n.value * u.factor < 2 ^ 64)) ∧
      (∀ u : SizeUnit, SizeExact n u) ∧
      (∀ text d, parseDuration text = .ok d →
        ∃ m u, IsQuantity text m (TimeUnit.text u) ∧ parseDuration (m.text ++ u.text) = .ok d) ∧
      (∀ text k, parseSize text = .ok k → Str.parseUnsigned 64 text.trim = some k ∨
        ∃ m u w, IsQuantity text m w ∧ w.toAsciiUppercase = SizeUnit.text u ∧ k = m.value * u.factor) :=
  ⟨durationExact_iff n, sizeExact n, fun _ _ => parseDuration_isQuantity, fun _ _ => parseSize_isQuantity⟩

theorem minutes_clamped : parseDuration "307445734561825861m" = .ok ⟨18446744073709551615, 0⟩ ∧
    18446744073709551615 < 307445734561825861 * 60 := by
  decide

end Pulsate.Flow
