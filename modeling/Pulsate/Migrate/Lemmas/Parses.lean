import Pulsate.Flow.Lemmas.Document
import Pulsate.Migrate.Import
import Pulsate.Migrate.Lemmas.Pieces

/-!
# How imported Flow is read

The lexer keeps to the templates of the importers exactly if the words in them fit, and then the parser reads the
blocks that were opened, unless a pattern is taken for the sign of a regular expression.
-/

namespace Pulsate.Migrate

open Pulsate.Flow

/-! ## Tokens -/

theorem slotted_word {w : Str} (hw : IsWord w) : Slotted w [.atom w] True := .of_lexes (.word hw)

theorem slotted_keyword {w v : Str} {d : Char} {ks : List TokenKind} {P : Prop} (hw : IsWord w) (hd : isAtomEnd d)
    (hb : d ≠ '{') (hv : Slotted (d :: v) ks P) : Slotted (w ++ d :: v) (.atom w :: ks) P :=
  ((slotted_word hw).append hd hb hv).imp_iff (iff_of_eq (true_and P))

theorem slotted_paren : Slotted [')'] [.rParen] True := Slotted.nil.single rfl

theorem slotted_status (code : Str) :
    Slotted ("status" ++ '=' :: (code ++ [')'])) [.atom "status", .equals, .atom code, .rParen] (IsAtom code) := by
  have hcode : Slotted (code ++ [')']) [.atom code, .rParen] (IsAtom code) :=
    ((Slotted.atom code).append rfl (by decide) slotted_paren).imp_iff (iff_of_eq (and_true _))
  exact slotted_keyword (by decide) rfl (by decide) (hcode.single rfl)

theorem Handler.slotted (h : Handler) : Slotted h.text h.kinds h.Fits := by
  cases h with
  | proxy target =>
    have htarget : Slotted (target ++ [')']) [.atom target, .rParen] (IsAtom target) :=
      ((Slotted.atom target).append rfl (by decide) slotted_paren).imp_iff (iff_of_eq (and_true _))
    have htext : (Handler.proxy target).text = "proxy" ++ '(' :: (target ++ [')']) := by
      unfold Handler.text
      simp only [List.append_assoc]
      rfl
    rw [htext]
    exact slotted_keyword (by decide) rfl (by decide) (htarget.single rfl)
  | redirect url code =>
    have htext : (Handler.redirect url code).text =
        "redirect" ++ '(' :: ("to" ++ '=' :: '"' :: (url ++ '"' :: ',' :: ' ' ::
          ("status" ++ '=' :: (code ++ [')'])))) := by
      unfold Handler.text
      simp only [List.append_assoc]
      rfl
    have hquoted := Slotted.quoted url (Slotted.single (d := ',') rfl (slotted_status code).space)
    have hargs := slotted_keyword (w := "to") (by decide) rfl (by decide) (Slotted.single (d := '=') rfl hquoted)
    rw [htext]
    exact slotted_keyword (by decide) rfl (by decide) (hargs.single rfl)
  | respond code =>
    have htext : (Handler.respond code).text =
        "respond" ++ '(' :: ("status" ++ '=' :: (code ++ [')'])) := by
      unfold Handler.text
      simp only [List.append_assoc]
      rfl
    rw [htext]
    exact slotted_keyword (by decide) rfl (by decide) ((slotted_status code).single rfl)
  | files dir =>
    have htext : (Handler.files dir).text = "files" ++ '(' :: '"' :: (dir ++ '"' :: [')']) := by
      unfold Handler.text
      simp only [List.append_assoc]
      rfl
    have hquoted := (Slotted.quoted dir slotted_paren).imp_iff (iff_of_eq (and_true _))
    rw [htext]
    exact slotted_keyword (by decide) rfl (by decide) (hquoted.single rfl)

theorem Line.slotted (l : Line) : Slotted l.text l.kinds l.Fits := by
  cases l with
  | target addr => exact slotted_keyword (w := "target") (by decide) rfl (by decide) (Slotted.atom addr).space
  | tls =>
    exact slotted_keyword (w := "tls") (by decide) rfl (by decide)
      (slotted_word (w := "auto") (by decide)).space
  | route pattern handler =>
    have htail : Slotted (' ' :: '~' :: '>' :: ' ' :: handler.text) (.arrow :: handler.kinds) handler.Fits :=
      handler.slotted.space.arrow.space
    have hpath := (Slotted.atom pattern.path).append rfl (by decide) htail
    have htext : (Line.route pattern handler).text =
        "route" ++ ' ' :: (pattern.text ++ ' ' :: '~' :: '>' :: ' ' :: handler.text) := by
      unfold Line.text
      simp only [List.append_assoc]
      rfl
    have hpattern : Slotted (pattern.text ++ ' ' :: '~' :: '>' :: ' ' :: handler.text)
        (pattern.kinds ++ .arrow :: handler.kinds) (IsAtom pattern.path ∧ handler.Fits) := by
      unfold Pattern.text Pattern.kinds
      cases pattern.exact with
      | false => exact hpath
      | true => exact hpath.space.single rfl
    rw [htext]
    exact slotted_keyword (by decide) rfl (by decide) hpattern.space

theorem Line.starts (l : Line) (s : Str) : Starts (l.text ++ s) := by
  cases l with
  | target addr => exact starts_cons rfl (by decide)
  | tls => exact starts_cons rfl (by decide)
  | route pattern handler => exact starts_cons rfl (by decide)

namespace Piece

/-- What follows the break after a header, up to the closing brace. -/
def tailText : List Line → Str
  | [] => ['\x7d']
  | l :: ls => ' ' :: ' ' :: (l.text ++ '\n' :: tailText ls)

theorem text_eq (p : Piece) :
    p.text = header p.keyword p.words ++ '\n' :: tailText p.lines ++ ['\n'] := by
  have htail (ls : List Line) : (ls.map (fun l => "  ".toList ++ l.text) ++ ["\x7d".toList]).flatMap
      (fun l => l ++ "\n".toList) = tailText ls ++ ['\n'] := by
    induction ls with
    | nil => rfl
    | cons l ls ih =>
      rw [List.map_cons, List.cons_append, List.flatMap_cons, ih, tailText]
      simp only [List.append_assoc, List.cons_append]
      rfl
  unfold text textLines
  rw [List.cons_append, List.flatMap_cons, htail]
  simp only [List.append_assoc]
  rfl

theorem slotted_tail (ls : List Line) :
    Slotted ('\n' :: tailText ls) (ls.flatMap (fun l => .sep :: l.kinds) ++ [.sep, .rBrace]) (∀ l ∈ ls, l.Fits) := by
  have hblank : ∀ c ∈ [' ', ' '], isBlank c := Str.forall_mem_of_all (by decide)
  induction ls with
  | nil =>
    have hclose : Slotted ('\n' :: ([] ++ ['\x7d'])) [.sep, .rBrace] True :=
      (Slotted.nil.single rfl).newline (by simp) (starts_cons rfl (by decide)) (by simp)
    exact hclose.imp_iff (by simp)
  | cons l ls ih =>
    have hl := (l.slotted.append rfl (by decide) ih).newline hblank (l.starts _) (by simp)
    rw [List.flatMap_cons, List.append_assoc]
    exact hl.imp_iff (by simp)

theorem slotted_header (keyword : Keyword) (words : List Str) {v : Str} {ks : List TokenKind} {P : Prop}
    (hv : Slotted ('\n' :: v) ks P) :
    Slotted (header keyword words ++ '\n' :: v) (.atom keyword.text :: words.map .atom ++ .lBrace :: ks)
      ((∀ w ∈ words, IsAtom w) ∧ P) := by
  have hopen : Slotted (' ' :: '\x7b' :: '\n' :: v) (.lBrace :: ks) P := (hv.single rfl).space
  have hkeyword : IsWord keyword.text := by cases keyword <;> decide
  cases words with
  | nil =>
    have htext : header keyword [] ++ '\n' :: v = keyword.text ++ ' ' :: ' ' :: '\x7b' :: '\n' :: v := by
      unfold header
      simp only [List.append_assoc]
      rfl
    rw [htext]
    exact (slotted_keyword hkeyword rfl (by decide) hopen.space).imp_iff (by simp)
  | cons w ws =>
    have hwords : ' ' :: [' '].intercalate (w :: ws) = (w :: ws).flatMap (fun w => ' ' :: w) := by
      induction ws generalizing w with
      | nil => simp
      | cons x ws ih => rw [List.intercalate_cons_cons, List.flatMap_cons, ← ih]; simp
    have htext : header keyword (w :: ws) ++ '\n' :: v =
        keyword.text ++ ((w :: ws).flatMap (fun w => ' ' :: w) ++ ' ' :: '\x7b' :: '\n' :: v) := by
      rw [← hwords]
      unfold header
      simp only [List.append_assoc]
      rfl
    have hall : Slotted ((w :: ws).flatMap (fun w => ' ' :: w) ++ ' ' :: '\x7b' :: '\n' :: v)
        ((w :: ws).map .atom ++ .lBrace :: ks) ((∀ x ∈ w :: ws, IsAtom x) ∧ P) := .words rfl (by decide) hopen
    rw [htext]
    exact slotted_keyword hkeyword rfl (by decide) hall

/-- The words of a block fit their places. -/
def Fits (p : Piece) : Prop := (∀ w ∈ p.words, IsAtom w) ∧ ∀ l ∈ p.lines, l.Fits

theorem slotted (p : Piece) :
    Slotted ('\n' :: (header p.keyword p.words ++ '\n' :: tailText p.lines)) (.sep :: p.kinds) p.Fits := by
  have hstarts : Starts (header p.keyword p.words ++ '\n' :: tailText p.lines) := by
    cases p.keyword <;> exact starts_cons rfl (by decide)
  have hnone : ∀ c ∈ ([] : Str), isBlank c := by simp
  have h := (slotted_header p.keyword p.words (slotted_tail p.lines)).newline hnone hstarts (by simp)
  have hkinds : p.kinds = .atom p.keyword.text :: p.words.map .atom ++
      .lBrace :: (p.lines.flatMap (fun l => .sep :: l.kinds) ++ [.sep, .rBrace]) := by
    unfold kinds
    simp only [List.append_assoc, List.cons_append]
  rw [hkinds]
  exact h

end Piece

theorem kinds_pieces (ps : List Piece) :
    Flow.kinds ('\n' :: ps.flatMap Piece.text) = some (tokens ps) ↔ ∀ p ∈ ps, p.Fits := by
  induction ps with
  | nil =>
    rw [kinds_separator rfl, List.flatMap_nil]
    simp [kinds_eq [], tokens]
  | cons p ps ih =>
    have htext : '\n' :: (p :: ps).flatMap Piece.text =
        '\n' :: (header p.keyword p.words ++ '\n' :: Piece.tailText p.lines) ++ '\n' :: ps.flatMap Piece.text := by
      rw [List.flatMap_cons, p.text_eq]
      simp
    have htokens : tokens (p :: ps) = .sep :: p.kinds ++ tokens ps := by
      rw [tokens, List.flatMap_cons, List.append_assoc]
      rfl
    rw [htext, htokens, p.slotted '\n' _ _ rfl (by decide), ih, List.forall_mem_cons]

theorem kinds_text {u : Str} (hu : '\n' ∉ u) (ps : List Piece) :
    Flow.kinds ('#' :: u ++ "\n" ++ ps.flatMap Piece.text) = some (tokens ps) ↔ ∀ p ∈ ps, p.Fits := by
  rw [← kinds_pieces, ← kinds_comment hu, List.append_assoc]
  rfl

/-! ## Trees -/

section Parse

open Parser

variable {p : Parser} {k : TokenKind} {ks : List TokenKind}

theorem Handler.parses (h : Handler) (hp : p.kinds = h.kinds ++ k :: ks) :
    ∃ s q, parseStep p = .ok (s, q) ∧ s.erase = h.tree ∧ q.kinds = k :: ks := by
  cases h with
  | proxy target => exact parseStep_line hp
  | redirect url code =>
    have h1 := bump_kinds (bump_kinds hp)
    have h2 := bump_kinds (bump_kinds h1)
    have h3 := bump_kinds (bump_kinds h2)
    have h4 := bump_kinds (bump_kinds (bump_kinds h3))
    have hurl := parseArg_named_value h1 (parseValue_str h2)
    obtain ⟨m, hm⟩ : ∃ m, p.bump.tokens.length = m + 1 := by
      rw [length_tokens, bump_kinds hp]
      exact ⟨_, rfl⟩
    have hcode := parseStepArgsFuel_last (n := m) h3 (by simp) (by simp) (parseArg_named h3) h4
    have hargs := parseStepArgsFuel_cons h1 (by simp) (by simp) hurl (bump_kinds h2) hcode
    rw [← hm] at hargs
    refine ⟨_, _, parseStep_args hp hargs h4, ?_, bump_kinds h4⟩
    rw [Step.erase, List.map_cons, List.map_singleton, Arg.erase, Arg.erase, typeAtom_erase]
    rfl
  | respond code =>
    have h1 := bump_kinds (bump_kinds hp)
    have h2 := bump_kinds (bump_kinds (bump_kinds h1))
    have hargs := parseStepArgsFuel_last (n := p.bump.tokens.length) h1 (by simp) (by simp) (parseArg_named h1) h2
    refine ⟨_, _, parseStep_args hp hargs h2, ?_, bump_kinds h2⟩
    rw [Step.erase, List.map_singleton, Arg.erase, typeAtom_erase]
    rfl
  | files dir =>
    have h1 := bump_kinds (bump_kinds hp)
    have hdir := parseArg_value h1 (by simp) (parseValue_str h1)
    have hargs := parseStepArgsFuel_last (n := p.bump.tokens.length) h1 (by simp) (by simp) hdir (bump_kinds h1)
    exact ⟨_, _, parseStep_args hp hargs (bump_kinds h1), rfl, bump_kinds (bump_kinds h1)⟩

theorem Handler.kinds_cons (h : Handler) : ∃ w ks, h.kinds = .atom w :: ks := by
  cases h <;> exact ⟨_, _, rfl⟩

theorem Line.isStmt {l : Line} (hl : l.Unsigned) : IsStmt l.kinds l.tree := by
  cases l with
  | target addr => exact IsStmt.directive (by decide) [.positional addr]
  | tls => exact IsStmt.directive (by decide) [.positional "auto"]
  | route pattern handler =>
    refine IsStmt.route (by simp [Pattern.kinds]) handler.kinds_cons ?_ handler.parses
    intro p ks hp
    refine parseMatcher_line (r := ⟨pattern.exact, pattern.path, none, [], []⟩) hl ?_
    rw [hp]
    rfl

theorem Line.isBroken {l : Line} (hl : ¬ l.Unsigned) : ∃ bad rest, l.kinds = bad ++ rest ∧ IsBroken bad := by
  cases l with
  | target addr => exact absurd trivial hl
  | tls => exact absurd trivial hl
  | route pattern handler =>
    have hsign : pattern.exact = false ∧ pattern.path = ['~'] := by
      simpa [Line.Unsigned] using hl
    refine ⟨[.atom "route", .atom ['~'], .arrow], handler.kinds, ?_, ⟨_, _, rfl⟩, ?_⟩
    · simp [Line.kinds, Pattern.kinds, hsign]
    · intro p n ks hp _ r hr
      have h1 := bump_kinds hp
      have he : parseMatcher p.bump = .error (p.bump.bump.err .cfgSyntax "expected a route pattern") := by
        simp only [parseMatcher, parseMatchKind, peekKind_eq h1, if_true, peekKind_eq (bump_kinds h1)]
      simp only [parseStmtFuel, peekKind_eq hp, parseRoute, he] at hr
      cases hr

theorem Keyword.ne_route (keyword : Keyword) : keyword.text ≠ "route" := by
  cases keyword <;> decide

theorem kinds_words (words : List Str) : (words.map WordArg.positional).flatMap WordArg.kinds = words.map .atom := by
  rw [List.flatMap_map]
  exact List.map_eq_flatMap.symm

theorem Piece.isStmt {x : Piece} (hx : ∀ l ∈ x.lines, l.Unsigned) : IsStmt x.kinds x.tree := by
  have h := IsStmt.block x.keyword.ne_route (x.words.map .positional)
    (IsStmt.forall₂_map (fun l hl => Line.isStmt (hx l hl)))
  rw [openKinds, kinds_words, List.flatMap_map, List.map_map] at h
  exact h

theorem exists_first {α : Type} {P : α → Prop} {l : List α} (h : ¬ ∀ a ∈ l, P a) :
    ∃ l₁ a l₂, l = l₁ ++ a :: l₂ ∧ (∀ b ∈ l₁, P b) ∧ ¬ P a := by
  induction l with
  | nil => exact absurd (by simp) h
  | cons a l ih =>
    by_cases ha : P a
    · obtain ⟨l₁, b, l₂, rfl, hl, hb⟩ := ih (fun hl => h (List.forall_mem_cons.mpr ⟨ha, hl⟩))
      exact ⟨a :: l₁, b, l₂, rfl, List.forall_mem_cons.mpr ⟨ha, hl⟩, hb⟩
    · exact ⟨[], a, l, rfl, by simp, ha⟩

theorem Piece.isBroken {x : Piece} (hx : ¬ ∀ l ∈ x.lines, l.Unsigned) :
    ∃ bad rest, x.kinds = bad ++ rest ∧ IsBroken bad := by
  obtain ⟨ls, l, ls', hlines, hls, hl⟩ := exists_first hx
  obtain ⟨bad, rest, hkinds, hbad⟩ := Line.isBroken hl
  refine ⟨_, rest ++ ls'.flatMap (fun l => .sep :: l.kinds) ++ [.sep, .rBrace], ?_,
    IsBroken.block x.keyword.ne_route (x.words.map .positional) (IsStmt.forall₂_map (fun l hl => Line.isStmt (hls l hl)))
      hbad⟩
  rw [openKinds, kinds_words, List.flatMap_map, Piece.kinds, hlines]
  simp [hkinds]

end Parse

theorem imported_flow (order : Lib.Iteration Str (List Str)) (source : Source) (text : Str) :
    ∃ u, '\n' ∉ u ∧ (imported order source text).flow =
      '#' :: u ++ "\n" ++ (pieces order source text).flatMap Piece.text := by
  cases source with
  | Nginx => exact ⟨Nginx.comment.tail, by decide, Nginx.imported_flow text⟩
  | Caddy => exact ⟨Caddy.comment.tail, by decide, Caddy.imported_flow text⟩
  | HAProxy => exact ⟨Haproxy.comment.tail, by decide, Haproxy.imported_flow order text⟩
  | Apache => exact ⟨Apache.comment.tail, by decide, Apache.imported_flow text⟩

theorem isReadAs_iff {flow : Str} {ps : List Piece}
    (hflow : Flow.kinds flow = some (tokens ps) ↔ ∀ p ∈ ps, p.Fits) :
    IsReadAs flow ps ↔ ∀ p ∈ ps, p.Safe := by
  have hlex : (lex flow).map (·.map Token.kind) = .ok (tokens ps) ↔ Flow.kinds flow = some (tokens ps) := by
    rw [← lex_kinds]
    cases lex flow <;> simp [Except.map, Except.toOption]
  have htokens : tokens ps = (ps.map Piece.kinds).flatMap (.sep :: ·) ++ [.sep, .eof] := by
    rw [List.flatMap_map]
    rfl
  constructor
  · rintro ⟨hl, ast, hast, -⟩
    have hk := hlex.mp hl
    have hunsigned : ∀ p ∈ ps, ∀ l ∈ p.lines, l.Unsigned := by
      by_contra hno
      obtain ⟨good, x, rest, hps, hgood, hx⟩ := exists_first hno
      obtain ⟨bad, ks, hkinds, hbad⟩ := Piece.isBroken hx
      have hbroken : Flow.kinds flow = some ((good.map Piece.kinds).flatMap (.sep :: ·) ++
          .sep :: (bad ++ (ks ++ tokens rest))) := by
        rw [hk, hps, tokens, List.flatMap_map, tokens]
        simp [hkinds]
      exact parse_of_broken (Parser.IsStmt.forall₂_map (fun p hp => Piece.isStmt (hgood p hp))) hbad hbroken ast hast
    intro p hp
    obtain ⟨hwords, hfits⟩ := hflow.mp hk p hp
    exact ⟨hwords, hfits, hunsigned p hp⟩
  · intro h
    have hk := hflow.mpr (fun p hp => ⟨(h p hp).words, (h p hp).fits⟩)
    refine ⟨hlex.mpr hk, ?_⟩
    rw [htokens] at hk
    obtain ⟨ast, hast, he⟩ := parse_of_stmts (Parser.IsStmt.forall₂_map (fun p hp => Piece.isStmt (h p hp).unsigned)) hk
    exact ⟨ast, hast, by rw [he]⟩

end Pulsate.Migrate
