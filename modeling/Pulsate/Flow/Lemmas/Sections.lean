import Pulsate.Flow.Lemmas.Barrier
import Pulsate.Flow.Lemmas.Document
import Pulsate.Flow.Lemmas.Split
import Pulsate.Lib.Lists

/-!
# Blocks at the end of a text

Blocks of one keyword, each with a word for a name and neither braces nor quotes inside, are read as such
blocks after any text that a closing brace ends, if the whole text is read at all.
-/

namespace Pulsate.Flow

open List Lib

variable {names : List Str} {ks : List TokenKind} {n : Nat} {ss : List Stmt}

/-! ## Tokens -/

/-- The tokens of named blocks of one keyword up to the end of input. -/
inductive Sections (keyword : Str) : List Str → List TokenKind → Prop
  | nil : Sections keyword [] [.sep, .eof]
  | cons {name : Str} {names : List Str} {body rest : List TokenKind} (hbody : ∀ k ∈ body, k.isFlat)
      (hrest : Sections keyword names rest) :
      Sections keyword (name :: names) (.sep :: .atom keyword :: .atom name :: .lBrace :: (body ++ .rBrace :: rest))

/-- A block with one word for an argument whose lines hold neither braces nor quotes. -/
structure Block.IsSection (b : Block) (keyword name : Str) : Prop where
  keyword : b.keyword = keyword
  args : b.args = [.positional name]
  name : IsWord name
  lines : ∀ l ∈ b.lines, ∀ c ∈ l.text, c ≠ '{' ∧ c ≠ '}' ∧ c ≠ '"'

/-- The inside of a block up to its closing brace. -/
def Block.inside (b : Block) : Str := b.lines.flatMap (fun l => "\n  ".toList ++ l.text) ++ "\n".toList

theorem Block.IsSection.text {b : Block} {keyword name : Str} (h : b.IsSection keyword name) :
    b.text = keyword ++ ' ' :: (name ++ ' ' :: '{' :: (b.inside ++ ['}'])) := by
  unfold Block.text Block.inside
  rw [h.keyword, h.args]
  have hclose : "\n\x7d".toList = "\n".toList ++ ['}'] := rfl
  have hopen : " \x7b".toList = [' ', '{'] := rfl
  simp only [flatMap_cons, flatMap_nil, WordArg.text, append_nil, append_assoc, hclose, hopen,
    cons_append, nil_append]

theorem Block.IsSection.inside {b : Block} {keyword name : Str} (h : b.IsSection keyword name) :
    ∀ c ∈ b.inside, c ≠ '{' ∧ c ≠ '}' ∧ c ≠ '"' := by
  have hindent : ∀ c ∈ "\n  ".toList, c ≠ '{' ∧ c ≠ '}' ∧ c ≠ '"' := Str.forall_mem_of_all (by decide)
  have hbreak : ∀ c ∈ "\n".toList, c ≠ '{' ∧ c ≠ '}' ∧ c ≠ '"' := Str.forall_mem_of_all (by decide)
  intro c hc
  rcases mem_append.mp hc with hc | hc
  · obtain ⟨l, hl, hc⟩ := mem_flatMap.mp hc
    rcases mem_append.mp hc with hc | hc
    · exact hindent c hc
    · exact h.lines l hl c hc
  · exact hbreak c hc

theorem Block.endsLine_inside (b : Block) : EndsLine b.inside := by
  right
  unfold Block.inside
  rw [getLast?_append_of_ne_nil _ (by decide)]
  rfl

theorem IsWord.no_quote {a : Str} (h : IsWord a) : '"' ∉ a := fun hm => by cases (h.chars _ hm).1

/-- The text of blocks, with a line break before and after each. -/
def blocksText (bs : List Block) : Str := bs.flatMap (fun b => "\n" ++ b.text ++ "\n")

theorem no_quote_blocksText {keyword : Str} (hkw : IsWord keyword) {bs : List Block}
    (h : ∀ b ∈ bs, ∃ name, b.IsSection keyword name) : '"' ∉ blocksText bs := by
  intro hm
  obtain ⟨b, hb, hm⟩ := mem_flatMap.mp hm
  obtain ⟨name, hs⟩ := h b hb
  rw [hs.text] at hm
  have hbreak : '"' ∉ "\n".toList := by decide
  simp only [mem_append, mem_cons, not_mem_nil, or_false] at hm
  rcases hm with (hm | hm | hm | hm | hm | hm | hm | hm) | hm
  · exact hbreak hm
  · exact hkw.no_quote hm
  · cases hm
  · exact hs.name.no_quote hm
  · cases hm
  · cases hm
  · exact (hs.inside _ hm).2.2 rfl
  · cases hm
  · exact hbreak hm

theorem kinds_blocksText {keyword : Str} (hkw : IsWord keyword) {bs : List Block}
    (h : List.Forall₂ (fun b name => b.IsSection keyword name) bs names) (hk : kinds ('\n' :: blocksText bs) = some ks) :
    Sections keyword names ks := by
  induction h generalizing ks with
  | nil =>
    have hnil : kinds ('\n' :: blocksText []) = some [.sep, .eof] := by
      rw [blocksText, flatMap_nil, kinds_separator rfl]
      simp [kinds_eq []]
    rw [hnil] at hk
    cases hk
    exact .nil
  | @cons b name bs names hs hall ih =>
    have hq : '"' ∉ blocksText bs := by
      refine no_quote_blocksText hkw (fun b hb => ?_)
      obtain ⟨name, -, hs⟩ := exists_right_of_forall₂ hall hb
      exact ⟨name, hs⟩
    have htext : '\n' :: blocksText (b :: bs) = '\n' :: (['\n'] ++ (keyword ++ ' ' :: (name ++ ' ' :: '{' ::
        (b.inside ++ '}' :: '\n' :: blocksText bs)))) := by
      rw [blocksText, flatMap_cons, hs.text, blocksText]
      have hbreak : "\n" = ['\n'] := rfl
      simp only [hbreak, append_assoc, cons_append, nil_append]
    have hstarts := starts_word hkw (' ' :: (name ++ ' ' :: '{' :: (b.inside ++ '}' :: '\n' :: blocksText bs)))
    rw [htext, kinds_break (Str.forall_mem_of_all (by decide)) hstarts, kinds_word hkw rfl, kinds_horizontal rfl, kinds_word hs.name rfl,
      kinds_horizontal rfl, kinds_single (k := .lBrace) rfl] at hk
    simp only [Option.map_map, Option.map_eq_some_iff, Function.comp_apply] at hk
    obtain ⟨ks', hk, rfl⟩ := hk
    obtain ⟨before, close, after, hsplit⟩ := kinds_split b.endsLine_inside hq hk
    obtain ⟨rfl, hflat⟩ := hsplit.flat (fun hm => (hs.inside _ hm).1 rfl) (fun hm => (hs.inside _ hm).2.1 rfl)
    rw [hsplit.split]
    exact .cons hflat (ih hsplit.rest)

/-! ## Parsing -/

namespace Parser

variable {t : Token} {rest : List Token} {p q : Parser}

theorem parseStmtsFuel_peekKind (h : parseStmtsFuel n false p = .ok (ss, q)) : q.peekKind = .eof := by
  induction n generalizing p ss with
  | zero => cases h
  | succ n ih =>
    simp only [parseStmtsFuel] at h
    split at h
    · rename_i hk
      cases h
      exact hk
    · cases h
    · obtain ⟨⟨s, r⟩, -, h⟩ := bind_eq_ok.mp h
      obtain ⟨⟨ss', r'⟩, hs, h⟩ := bind_eq_ok.mp h
      obtain ⟨-, rfl⟩ := Prod.mk.inj (Except.ok.inj h)
      exact ih hs

theorem parseStmtFuel_flat {s : Stmt} (h : Before (fun k => k.isFlat) t rest p) (ht : t.kind = .rBrace)
    (hs : parseStmtFuel n p = .ok (s, q)) : Before (fun k => k.isFlat) t rest q := by
  cases n with
  | zero => cases hs
  | succ n =>
    simp only [parseStmtFuel] at hs
    split at hs
    · rename_i kw hk
      split at hs
      · obtain ⟨⟨r, q'⟩, hr, hs⟩ := bind_eq_ok.mp hs
        cases hs
        exact parseRoute_before h hk _ _ hr
      · obtain ⟨⟨args, q1⟩, ha, hs⟩ := bind_eq_ok.mp hs
        have h1 : Before (fun k => k.isFlat) t rest q1 := by
          rcases parseSpaceArgsFuel_before _ (h.bump_plain hk rfl) _ _ ha with h1 | ⟨-, -, e, he⟩
          · exact h1
          · rw [ht] at he; cases he
        simp only at hs
        split at hs
        · rename_i hl
          rcases h1.peekKind with hp | hp | ⟨e, hp⟩
          · rw [hl] at hp; cases hp
          · rw [hl] at hp; cases hp
          · rw [hl] at hp; cases hp
        · cases hs
          exact h1
    · cases hs

theorem parseStmtsFuel_flat (h : Before (fun k => k.isFlat) t rest p) (ht : t.kind = .rBrace) (hne : rest ≠ [])
    (hs : parseStmtsFuel n true p = .ok (ss, q)) : q.tokens = rest := by
  induction n generalizing p ss with
  | zero => cases hs
  | succ n ih =>
    have h1 := h.skipSeps
    simp only [parseStmtsFuel, if_true] at hs
    split at hs
    · cases hs
    · rename_i hk
      cases hs
      obtain ⟨c, hc, -, hflat⟩ := h1
      cases c with
      | nil =>
        exact bump_tokens hc hne
      | cons u c =>
        rw [peekKind_cons hc] at hk
        have hu := hflat u mem_cons_self
        rw [hk] at hu
        cases hu
    · obtain ⟨⟨s, r⟩, hstmt, hs⟩ := bind_eq_ok.mp hs
      obtain ⟨⟨ss', r'⟩, hstmts, hs⟩ := bind_eq_ok.mp hs
      obtain ⟨-, rfl⟩ := Prod.mk.inj (Except.ok.inj hs)
      exact ih (parseStmtFuel_flat h1 ht hstmt) hstmts

end Parser

/-- A block of the keyword with one argument, the name as it is typed. -/
def Stmt.IsSection (keyword : Str) (s : Stmt) (name : Str) : Prop :=
  ∃ kspan aspan body span, s = .block ⟨keyword, kspan⟩ [.positional ⟨typeAtom name, aspan⟩] body span

namespace Parser

variable {keyword : Str} {p q : Parser}

theorem Sections.ne_nil (h : Sections keyword names ks) : ks ≠ [] := by
  cases h <;> simp

theorem parseStmtFuel_section {s : Stmt} {name : Str} {body rest : List TokenKind} (hkw : keyword ≠ "route")
    (hbody : ∀ k ∈ body, k.isFlat) (hrest : rest ≠ [])
    (h : p.kinds = .atom keyword :: .atom name :: .lBrace :: (body ++ .rBrace :: rest)) (hs : parseStmtFuel n p = .ok (s, q)) :
    s.IsSection keyword name ∧ q.kinds = rest := by
  cases n with
  | zero => cases hs
  | succ n =>
    have hargs : p.bump.kinds = [WordArg.positional name].flatMap WordArg.kinds ++ .lBrace :: (body ++ .rBrace :: rest) :=
      bump_kinds h
    obtain ⟨as, q1, has, hase, hq1⟩ := parseSpaceArgs_words (.inr rfl) hargs
    obtain ⟨a, rfl, ha⟩ := map_eq_singleton_iff.mp hase
    obtain ⟨aspan, rfl⟩ := Arg.eq_of_erase_positional ha (typeAtom_ne_array name)
    simp only [parseStmtFuel, peekKind_eq h, if_neg hkw, has, ok_bind, peekKind_eq hq1, if_true] at hs
    obtain ⟨⟨ss, r⟩, hss, hs⟩ := bind_eq_ok.mp hs
    obtain ⟨rfl, rfl⟩ := Prod.mk.inj (Except.ok.inj hs)
    refine ⟨⟨_, aspan, ss, _, rfl⟩, ?_⟩
    have hq2 : q1.bump.kinds = body ++ .rBrace :: rest := by
      cases hb : body ++ .rBrace :: rest with
      | nil => simp at hb
      | cons k ks => rw [hb] at hq1; exact bump_kinds hq1
    obtain ⟨c, l, hl, hc, hl'⟩ := map_eq_append_iff.mp hq2
    obtain ⟨t, rest', rfl, ht, hr⟩ := map_eq_cons_iff.mp hl'
    have hbefore : Before (fun k => k.isFlat) t rest' q1.bump :=
      ⟨c, hl, .inl ht, fun u hu => hbody _ (hc ▸ mem_map_of_mem hu)⟩
    have hne : rest' ≠ [] := by
      rintro rfl
      exact hrest hr.symm
    rw [Parser.kinds, parseStmtsFuel_flat hbefore ht hne hss, hr]

theorem parseStmtsFuel_sections {nested : Bool} (hkw : keyword ≠ "route") (h : Sections keyword names ks)
    (hp : p.kinds = ks) (hs : parseStmtsFuel n nested p = .ok (ss, q)) :
    nested = false ∧ List.Forall₂ (Stmt.IsSection keyword) ss names := by
  induction h generalizing n p ss with
  | nil =>
    cases n with
    | zero => cases hs
    | succ n =>
      simp only [parseStmtsFuel, peekKind_eq (skipSeps_kinds hp (by simp))] at hs
      cases nested with
      | true => cases hs
      | false => cases hs; exact ⟨rfl, .nil⟩
  | cons hbody hrest ih =>
    cases n with
    | zero => cases hs
    | succ n =>
      have hskip := skipSeps_kinds hp (by simp)
      simp only [parseStmtsFuel, peekKind_eq hskip] at hs
      obtain ⟨⟨s, r⟩, hstmt, hs⟩ := bind_eq_ok.mp hs
      obtain ⟨⟨ss', r'⟩, hstmts, hs⟩ := bind_eq_ok.mp hs
      obtain ⟨rfl, rfl⟩ := Prod.mk.inj (Except.ok.inj hs)
      obtain ⟨hsec, hr⟩ := parseStmtFuel_section hkw hbody (Sections.ne_nil hrest) hskip hstmt
      obtain ⟨hnested, hall⟩ := ih hr hstmts
      exact ⟨hnested, .cons hsec hall⟩

end Parser

theorem parse_sections {keyword z : Str} (hkw : IsKeyword keyword) (hz : EndsLine z) {bs : List Block}
    {names : List Str} (h : List.Forall₂ (fun b name => b.IsSection keyword name) bs names) (hne : names ≠ []) {ast : Ast}
    (hparse : parse (z ++ '}' :: '\n' :: blocksText bs) = .ok ast) :
    ∃ s1 s2, ast.stmts = s1 ++ s2 ∧ List.Forall₂ (Stmt.IsSection keyword) s2 names := by
  obtain ⟨tokens, hlex, hparse⟩ := bind_eq_ok.mp hparse
  obtain ⟨⟨ss, q⟩, hss, hparse⟩ := bind_eq_ok.mp hparse
  cases hparse
  have hkinds := lex_kinds (z ++ '}' :: '\n' :: blocksText bs)
  rw [hlex] at hkinds
  have hq : '"' ∉ blocksText bs := by
    refine no_quote_blocksText hkw.1 (fun b hb => ?_)
    obtain ⟨name, -, hs⟩ := exists_right_of_forall₂ h hb
    exact ⟨name, hs⟩
  obtain ⟨before, close, after, hsplit⟩ := kinds_split hz hq hkinds.symm
  have hsections := kinds_blocksText hkw.1 h hsplit.rest
  obtain ⟨c, l, rfl, hc, hl⟩ := map_eq_append_iff.mp hsplit.split
  obtain ⟨t, rest, rfl, ht, hrest⟩ := map_eq_cons_iff.mp hl
  have hline : LineEnd rest := by
    cases hsections with
    | nil => exact absurd rfl hne
    | cons hbody hrest' =>
      obtain ⟨s, rest, rfl, hs, hr⟩ := map_eq_cons_iff.mp hrest
      obtain ⟨a, rest, rfl, ha, -⟩ := map_eq_cons_iff.mp hr
      exact ⟨s, a, rest, rfl, hs, keyword, ha⟩
  have hbarrier : Barrier t rest := by
    rcases hsplit.closes with rfl | ⟨e, rfl⟩
    · exact .inl ht
    · exact .inr ⟨⟨e, ht⟩, hline⟩
  -- the end of input is the last token, so none of those before the brace
  have hinner : ∀ u ∈ c, u.kind ≠ .eof := by
    obtain ⟨init, hi, hin⟩ := kinds_inner hkinds.symm
    have hinit : init = c.map Token.kind ++ (t.kind :: rest.map Token.kind).dropLast := by
      have := congrArg List.dropLast hi
      dsimp only at this
      rw [dropLast_concat, map_append, map_cons, dropLast_append_of_ne_nil (by simp)] at this
      exact this.symm
    intro u hu
    exact (hin u.kind (by rw [hinit]; exact mem_append_left _ (mem_map_of_mem hu))).1
  have hp : Parser.Before (fun k => k ≠ .eof) t rest ⟨((c ++ t :: rest).headD ⟨.eof, ⟨0, 0, 1, 1⟩⟩).span, c ++ t :: rest⟩ :=
    ⟨c, rfl, hbarrier, hinner⟩
  rcases (Parser.parseStmtsFuel_before _).1 hp hss with hend | ⟨n, r, ss', q', hr, hcross⟩ | ⟨m, r, s1, s2, rfl, hr, hs2⟩
  · -- the statements do not end before the sections
    exfalso
    have heof := Parser.parseStmtsFuel_peekKind hss
    rcases hend with ⟨c', hc', -, hin⟩ | hend
    · cases c' with
      | nil =>
        rw [Parser.peekKind_cons hc', ht] at heof
        rcases hsplit.closes with hcl | ⟨e, hcl⟩
        · rw [hcl] at heof; cases heof
        · rw [hcl] at heof; cases heof
      | cons u c' =>
        rw [Parser.peekKind_cons hc'] at heof
        exact hin u mem_cons_self heof
    · obtain ⟨s, a, r, rfl, hs, -⟩ := hline
      rw [Parser.peekKind_cons hend, hs] at heof
      cases heof
  · have hk : r.kinds = after := by rw [Parser.kinds, hr, hrest]
    cases (Parser.parseStmtsFuel_sections hkw.2 hsections hk hcross).1
  · have hk : r.kinds = after := by rw [Parser.kinds, hr, hrest]
    exact ⟨s1, s2, rfl, (Parser.parseStmtsFuel_sections hkw.2 hsections hk hs2).2⟩

end Pulsate.Flow
