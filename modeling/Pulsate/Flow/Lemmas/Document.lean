import Mathlib.Data.List.Forall2
import Pulsate.Flow.Document
import Pulsate.Flow.Lemmas.Text
import Pulsate.Flow.Lemmas.Value
import Pulsate.Lib.Except

/-!
# Reading what was written

A document of proper words lexes to its tokens and parses to its tree.
-/

namespace Pulsate.Flow

open List Lib Pulsate.Flow.Parser WordArg

variable {a v keyword name text : Str} {args : List WordArg} {r : RouteLine} {q : Parser} {n : Nat} {xs : List (List TokenKind)}
  {ts : List Stmt} {bad : List TokenKind}

/-! ## Well-formed documents -/

def WordArg.WF : WordArg → Prop
  | .positional word => IsWord word
  | .named name word => IsWord name ∧ IsWord word

structure RouteLine.WF (r : RouteLine) : Prop where
  pattern : IsWord r.pattern
  predicate : ∀ p ∈ r.predicate, IsWord p.1 ∧ IsWord p.2
  handler : IsWord r.handler
  arg : IsWord r.arg

/-- A keyword that does not start a route. -/
def IsKeyword (kw : Str) : Prop := IsWord kw ∧ kw ≠ "route"

instance (kw : Str) : Decidable (IsKeyword kw) := inferInstanceAs (Decidable (_ ∧ _))

def Line.WF : Line → Prop
  | .directive keyword args => IsKeyword keyword ∧ ∀ a ∈ args, a.WF
  | .route r => r.WF

structure Block.WF (b : Block) : Prop where
  keyword : IsKeyword b.keyword
  args : ∀ a ∈ b.args, a.WF
  lines : ∀ l ∈ b.lines, l.WF

structure Document.WF (d : Document) : Prop where
  comment : '\n' ∉ d.comment
  blocks : ∀ b ∈ d.blocks, b.WF

/-! ## Tokens -/

theorem isWord_route : IsWord "route" := by decide

theorem WordArg.lexes {a : WordArg} (h : a.WF) : Lexes a.text a.kinds := by
  cases a with
  | positional word => exact Lexes.word h
  | named name word =>
    have htext : (named name word).text = name ++ '=' :: word := by
      show name ++ "=" ++ word = _
      rw [append_assoc]
      rfl
    rw [htext]
    exact (Lexes.word h.1).append rfl (Lexes.single rfl (Lexes.word h.2))

theorem lexes_args (h : ∀ a ∈ args, a.WF) {d : Char} (hd : isAtomEnd d) {ks : List TokenKind} (hv : Lexes (d :: v) ks) :
    ∃ c t, args.flatMap (fun a => ' ' :: a.text) ++ d :: v = c :: t ∧ isAtomEnd c ∧
      Lexes (c :: t) (args.flatMap WordArg.kinds ++ ks) := by
  induction args with
  | nil => exact ⟨d, v, rfl, hd, hv⟩
  | cons a args ih =>
    obtain ⟨c, t, ht, hc, hl⟩ := ih (fun b hb => h b (mem_cons_of_mem _ hb))
    refine ⟨' ', a.text ++ c :: t, ?_, rfl, ?_⟩
    · rw [flatMap_cons, cons_append, cons_append, append_assoc, ht]
    · rw [flatMap_cons, append_assoc]
      exact ((lexes (h a mem_cons_self)).append hc hl).space

theorem lexes_keyword_args (hk : IsWord keyword) (h : ∀ a ∈ args, a.WF) {d : Char} (hd : isAtomEnd d)
    {ks : List TokenKind} (hv : Lexes (d :: v) ks) :
    Lexes (keyword ++ args.flatMap (fun a => ' ' :: a.text) ++ d :: v)
      (.atom keyword :: args.flatMap WordArg.kinds ++ ks) := by
  obtain ⟨c, t, ht, hc, hl⟩ := lexes_args h hd hv
  rw [append_assoc, ht]
  exact (Lexes.word hk).append hc hl

namespace RouteLine

theorem lexes_tail (h : r.WF) : ∃ t, r.tailText = ' ' :: t ∧ Lexes (' ' :: t) r.tailKinds := by
  have harg : Lexes ('(' :: (r.arg ++ [')'])) [.lParen, .atom r.arg, .rParen] :=
    Lexes.single rfl ((Lexes.word h.arg).append rfl (Lexes.single rfl Lexes.nil))
  have hend : Lexes (' ' :: '~' :: '>' :: ' ' :: (r.handler ++ '(' :: (r.arg ++ [')'])))
      [.arrow, .atom r.handler, .lParen, .atom r.arg, .rParen] :=
    (((Lexes.word h.handler).append rfl harg).space).arrow.space
  unfold tailText tailKinds
  cases hp : r.predicate with
  | none =>
    refine ⟨_, ?_, hend⟩
    simp only [nil_append, append_assoc]
    rfl
  | some p =>
    obtain ⟨key, value⟩ := p
    obtain ⟨hkey, hvalue⟩ := h.predicate (key, value) (by rw [hp]; rfl)
    have hclose := Lexes.single (d := ']') rfl hend
    have hval := (Lexes.word hvalue).append rfl hclose
    have heq := Lexes.single (d := '=') rfl hval
    have hall := (Lexes.single (d := '[') rfl ((Lexes.word hkey).append rfl heq)).space
    refine ⟨_, ?_, hall⟩
    simp only [append_assoc]
    rfl

theorem lexes (h : r.WF) : Lexes r.text r.kinds := by
  obtain ⟨t, ht, hl⟩ := lexes_tail h
  have hpat := (Lexes.word h.pattern).append rfl hl
  unfold text kinds
  rw [ht]
  cases r.exact with
  | false =>
    have htext : "route ".toList ++ [] ++ r.pattern ++ ' ' :: t =
        "route".toList ++ ' ' :: (r.pattern ++ ' ' :: t) := by
      simp only [append_assoc]
      rfl
    simp only [Bool.false_eq_true, if_false]
    rw [htext]
    exact (Lexes.word isWord_route).append rfl hpat.space
  | true =>
    have htext : "route ".toList ++ "= ".toList ++ r.pattern ++ ' ' :: t =
        "route".toList ++ ' ' :: '=' :: ' ' :: (r.pattern ++ ' ' :: t) := by
      simp only [append_assoc]
      rfl
    simp only [if_true]
    rw [htext]
    exact (Lexes.word isWord_route).append rfl (Lexes.single rfl hpat.space).space

end RouteLine

theorem Line.lexes_before {l : Line} (h : l.WF) {d : Char} (hd : isAtomEnd d) {ks : List TokenKind}
    (hv : Lexes (d :: v) ks) : Lexes ("\n  ".toList ++ l.text ++ d :: v) (.sep :: l.kinds ++ ks) := by
  have hblank : ∀ c ∈ "  ".toList, isBlank c := Str.forall_mem_of_all (by decide)
  have hbreak : ∀ {u : Str} {us : List TokenKind}, IsWord u → ∀ {w : Str}, l.text = u ++ w →
      Lexes (l.text ++ d :: v) us → Lexes ("\n  ".toList ++ l.text ++ d :: v) (.sep :: us) := by
    intro u us hu w hw hl
    have hs : Starts (l.text ++ d :: v) := by rw [hw, append_assoc]; exact starts_word hu _
    have hne : l.text ++ d :: v ≠ [] := by simp
    rw [append_assoc]
    exact hl.newline hblank hs hne
  cases l with
  | directive keyword args =>
    exact hbreak h.1.1 rfl (lexes_keyword_args h.1.1 h.2 hd hv)
  | route r =>
    have htext : (Line.route r).text = "route".toList ++
        (' ' :: ((if r.exact then "= ".toList else []) ++ r.pattern ++ r.tailText)) := by
      show r.text = _
      unfold RouteLine.text
      simp only [append_assoc]
      rfl
    exact hbreak isWord_route htext ((RouteLine.lexes h).append hd hv)

theorem lexes_lines {ls : List Line} (h : ∀ l ∈ ls, l.WF) :
    ∃ t, ls.flatMap (fun l => "\n  ".toList ++ l.text) ++ "\n\x7d".toList = '\n' :: t ∧
      Lexes ('\n' :: t) (ls.flatMap (fun l => .sep :: l.kinds) ++ [.sep, .rBrace]) := by
  induction ls with
  | nil =>
    have hclose : Lexes ('\n' :: ([] ++ ['}'])) [.sep, .rBrace] :=
      (Lexes.single (d := '}') rfl Lexes.nil).newline (by simp) (starts_cons rfl (by decide)) (by simp)
    exact ⟨['}'], rfl, hclose⟩
  | cons l ls ih =>
    obtain ⟨t, ht, hl⟩ := ih (fun l hl => h l (mem_cons_of_mem _ hl))
    have hb := Line.lexes_before (h l mem_cons_self) (d := '\n') rfl hl
    rw [append_assoc] at hb
    refine ⟨"  ".toList ++ (l.text ++ '\n' :: t), ?_, ?_⟩
    · rw [flatMap_cons, append_assoc, ht, append_assoc]
      rfl
    · rw [flatMap_cons, append_assoc]
      exact hb

theorem Block.lexes {b : Block} (h : b.WF) : Lexes b.text b.kinds := by
  obtain ⟨t, ht, hl⟩ := lexes_lines h.lines
  have hopen := (Lexes.single (d := '{') rfl hl).space
  have hall := lexes_keyword_args h.keyword.1 h.args (d := ' ') rfl hopen
  have htext : b.text = b.keyword ++ b.args.flatMap (fun a => ' ' :: a.text) ++ ' ' :: '{' :: '\n' :: t := by
    rw [← ht]
    unfold Block.text
    simp only [append_assoc]
    rfl
  have hkinds : b.kinds = .atom b.keyword :: b.args.flatMap WordArg.kinds ++
      .lBrace :: (b.lines.flatMap (fun l => .sep :: l.kinds) ++ [.sep, .rBrace]) := by
    unfold Block.kinds
    simp only [append_assoc, cons_append]
  rw [htext, hkinds]
  exact hall

theorem Block.starts {b : Block} (h : b.WF) (s : Str) : Starts (b.text ++ s) := by
  unfold Block.text
  simp only [append_assoc]
  exact starts_word h.keyword.1 _

theorem kinds_blocks {bs : List Block} (h : ∀ b ∈ bs, b.WF) :
    kinds ('\n' :: bs.flatMap (fun b => "\n" ++ b.text ++ "\n")) =
      some (bs.flatMap (fun b => .sep :: b.kinds) ++ [.sep, .eof]) := by
  induction bs with
  | nil => rw [kinds_separator rfl, flatMap_nil]; simp [kinds_eq []]
  | cons b bs ih =>
    have hb := h b mem_cons_self
    have hih := ih (fun b hb => h b (mem_cons_of_mem _ hb))
    have htext : '\n' :: (b :: bs).flatMap (fun b => "\n" ++ b.text ++ "\n") =
        '\n' :: (['\n'] ++ (b.text ++ '\n' :: bs.flatMap (fun b => "\n" ++ b.text ++ "\n"))) := by
      rw [flatMap_cons]
      simp only [append_assoc]
      rfl
    rw [htext, kinds_break (Str.forall_mem_of_all (by decide)) (Block.starts hb _), Block.lexes hb '\n' _ rfl, hih]
    simp

theorem Document.lexes {d : Document} (h : d.WF) : Flow.kinds d.text = some d.kinds := by
  have htext : d.text =
      '#' :: (d.comment ++ '\n' :: d.blocks.flatMap (fun b => "\n" ++ b.text ++ "\n")) := by
    unfold Document.text
    simp only [append_assoc]
    rfl
  rw [htext, kinds_comment h.comment, kinds_blocks h.blocks]
  rfl

/-! ## Parsing tokens of given kinds -/

namespace Parser

def kinds (p : Parser) : List TokenKind := p.tokens.map Token.kind

variable {p : Parser} {k k' : TokenKind} {ks ks' : List TokenKind}

theorem peekKind_eq (h : p.kinds = k :: ks) : p.peekKind = k := by
  obtain ⟨t, ts, ht, rfl, -⟩ := map_eq_cons_iff.mp h
  rw [peekKind, peek, ht, headD_cons]

theorem nextKind_eq (h : p.kinds = k :: k' :: ks) : p.nextKind = k' := by
  obtain ⟨t, ts, ht, -, h2⟩ := map_eq_cons_iff.mp h
  obtain ⟨t', ts', rfl, rfl, -⟩ := map_eq_cons_iff.mp h2
  rw [nextKind, ht]

theorem bump_kinds (h : p.kinds = k :: k' :: ks) : p.bump.kinds = k' :: ks := by
  obtain ⟨t, ts, ht, -, h2⟩ := map_eq_cons_iff.mp h
  obtain ⟨t', ts', rfl, rfl, rfl⟩ := map_eq_cons_iff.mp h2
  rw [kinds, bump, ht]
  rfl

theorem skipSeps_eq (h : p.kinds = k :: ks) (hk : k ≠ .sep) : p.skipSeps = p := by
  obtain ⟨t, ts, ht, rfl, -⟩ := map_eq_cons_iff.mp h
  rw [skipSeps, ht, dropWhile_cons_of_neg (by simpa using hk), ← ht]

theorem skipSeps_kinds (h : p.kinds = .sep :: k :: ks) (hk : k ≠ .sep) : p.skipSeps.kinds = k :: ks := by
  obtain ⟨t, ts, ht, hs, h2⟩ := map_eq_cons_iff.mp h
  obtain ⟨t', ts', rfl, rfl, rfl⟩ := map_eq_cons_iff.mp h2
  rw [kinds, skipSeps, ht, dropWhile_cons_of_pos (by simpa using hs),
    dropWhile_cons_of_neg (by simpa using hk)]
  rfl

theorem length_tokens (p : Parser) : p.tokens.length = p.kinds.length := by
  rw [kinds, length_map]

/-! ### Arguments -/

theorem parseValue_atom (h : p.kinds = .atom a :: ks) : parseValue p = .ok (⟨typeAtom a, p.peek.span⟩, p.bump) := by
  rw [parseValue, parseValueFuel, peekKind_eq h]

theorem parseValue_str {s : Str} (h : p.kinds = .str s :: ks) :
    parseValue p = .ok (⟨.str s, p.peek.span⟩, p.bump) := by
  rw [parseValue, parseValueFuel, peekKind_eq h]

theorem parseArg_value {v : Spanned Value} (h : p.kinds = k :: k' :: ks) (hk : k' ≠ .equals) (hv : parseValue p = .ok (v, q)) :
    parseArg p = .ok (.positional v, q) := by
  rw [parseArg]
  split
  · rename_i hn
    rw [nextKind_eq h] at hn
    exact absurd hn hk
  · rw [hv]; rfl

theorem parseArg_named_value {v : Spanned Value} (h : p.kinds = .atom name :: .equals :: ks)
    (hv : parseValue p.bump.bump = .ok (v, q)) : parseArg p = .ok (.named ⟨name, p.peek.span⟩ v, q) := by
  rw [parseArg, peekKind_eq h, nextKind_eq h]
  simp only
  rw [hv]
  rfl

theorem parseArg_positional (h : p.kinds = .atom a :: k :: ks) (hk : k ≠ .equals) :
    parseArg p = .ok (.positional ⟨typeAtom a, p.peek.span⟩, p.bump) :=
  parseArg_value h hk (parseValue_atom h)

theorem parseArg_named (h : p.kinds = .atom name :: .equals :: .atom a :: k :: ks) :
    parseArg p = .ok (.named ⟨name, p.peek.span⟩ ⟨typeAtom a, p.bump.bump.peek.span⟩, p.bump.bump.bump) :=
  parseArg_named_value h (parseValue_atom (bump_kinds (bump_kinds h)))

theorem parseArg_word {a : WordArg} (h : p.kinds = a.kinds ++ k :: ks) (hk : k ≠ .equals) :
    ∃ arg q, parseArg p = .ok (arg, q) ∧ arg.erase = a.tree ∧ q.kinds = k :: ks := by
  cases a with
  | positional word =>
    refine ⟨_, _, parseArg_positional h hk, ?_, bump_kinds h⟩
    rw [Arg.erase, typeAtom_erase, tree]
  | named name word =>
    refine ⟨_, _, parseArg_named h, ?_, bump_kinds (bump_kinds (bump_kinds h))⟩
    rw [Arg.erase, typeAtom_erase, tree]

/-- Where arguments end. -/
def IsArgsEnd (k : TokenKind) : Prop := k = .sep ∨ k = .lBrace

theorem parseSpaceArgsFuel_words (hk : IsArgsEnd k) (h : p.kinds = args.flatMap WordArg.kinds ++ k :: ks) (hn : args.length < n) :
    ∃ as q, parseSpaceArgsFuel n p = .ok (as, q) ∧ as.map Arg.erase = args.map tree ∧
      q.kinds = k :: ks := by
  induction args generalizing n p with
  | nil =>
    obtain ⟨n, rfl⟩ : ∃ m, n = m + 1 := ⟨n - 1, by simp at hn; omega⟩
    have hs : p.startsArg = false := by
      rw [startsArg, peekKind_eq h]
      rcases hk with rfl | rfl <;> rfl
    refine ⟨[], p, ?_, rfl, h⟩
    simp [parseSpaceArgsFuel, hs]
  | cons a args ih =>
    obtain ⟨n, rfl⟩ : ∃ m, n = m + 1 := ⟨n - 1, by simp at hn; omega⟩
    rw [flatMap_cons, append_assoc] at h
    -- the next argument, or the end of them, is no `=`
    obtain ⟨k', ks', hks, hk'⟩ : ∃ k' ks', args.flatMap WordArg.kinds ++ k :: ks = k' :: ks' ∧ k' ≠ .equals := by
      cases args with
      | nil => exact ⟨k, ks, rfl, by rcases hk with rfl | rfl <;> simp⟩
      | cons b args =>
        cases b with
        | positional word => exact ⟨_, _, rfl, by simp⟩
        | named name word => exact ⟨_, _, rfl, by simp⟩
    have hs : p.startsArg := by
      rw [startsArg]
      cases a with
      | positional word => rw [peekKind_eq h]
      | named name word => rw [peekKind_eq h]
    rw [hks] at h
    obtain ⟨arg, q, harg, hae, hq⟩ := parseArg_word h hk'
    rw [← hks] at hq
    obtain ⟨as, r, has, hase, hr⟩ := ih hq (by simp at hn; omega)
    refine ⟨arg :: as, r, ?_, ?_, hr⟩
    · simp only [parseSpaceArgsFuel, hs, if_true, harg, ok_bind, has]
      rfl
    · rw [map_cons, map_cons, hae, hase]

theorem parseSpaceArgs_words (hk : IsArgsEnd k) (h : p.kinds = args.flatMap WordArg.kinds ++ k :: ks) :
    ∃ as q, parseSpaceArgs p = .ok (as, q) ∧ as.map Arg.erase = args.map tree ∧ q.kinds = k :: ks := by
  refine parseSpaceArgsFuel_words hk h ?_
  have hle : args.length ≤ (args.flatMap WordArg.kinds).length := by
    clear h
    induction args with
    | nil => simp
    | cons a args ih =>
      have : 1 ≤ a.kinds.length := by cases a <;> simp [WordArg.kinds]
      rw [flatMap_cons, length_append, length_cons]
      omega
  rw [length_tokens, h, length_append]
  omega

/-! ### Routes -/

theorem parsePredicates_one {key value : Str}
    (h : p.kinds = .lBracket :: .atom key :: .equals :: .atom value :: .rBracket :: k :: ks) :
    ∃ preds stop q, parsePredicates p = .ok ((preds, stop), q) ∧
      preds.map Predicate.erase = [⟨key, valueToLexeme (typeAtom value), Span.zero⟩] ∧ q.kinds = k :: ks := by
  have h1 := bump_kinds h
  have h2 := bump_kinds h1
  have h3 := bump_kinds h2
  have h4 := bump_kinds h3
  have h5 := bump_kinds h4
  have hpred : parsePredicate key p.bump = .ok (⟨key, valueToLexeme (typeAtom value),
      spanTo p.bump.peek.span p.bump.bump.bump.peek.span.stop⟩, p.bump.bump.bump.bump) := by
    rw [parsePredicate, if_pos (peekKind_eq h2), parseValue_atom h3]
    rfl
  have hlist : parsePredicateListFuel (p.tokens.length + 1) p.bump = .ok ([⟨key, valueToLexeme (typeAtom value),
      spanTo p.bump.peek.span p.bump.bump.bump.peek.span.stop⟩], p.bump.bump.bump.bump) := by
    have hs4 : p.bump.bump.bump.bump.skipSeps = p.bump.bump.bump.bump := skipSeps_eq h4 (by simp)
    simp only [parsePredicateListFuel, skipSeps_eq h1 (by simp), peekKind_eq h1, hpred, ok_bind, hs4,
      peekKind_eq h4]
    rfl
  refine ⟨[⟨key, valueToLexeme (typeAtom value), spanTo p.bump.peek.span p.bump.bump.bump.peek.span.stop⟩],
    p.bump.bump.bump.bump.peek.span.stop, _, ?_, rfl, h5⟩
  rw [parsePredicates, hlist, ok_bind]
  simp only [peekKind_eq h4, if_true]
  rfl

theorem parseMatchKind_line (hr : r.exact = false → r.pattern ≠ ['~'])
    (h : p.kinds = (if r.exact then [.equals] else []) ++ .atom r.pattern :: k :: ks) :
    p.parseMatchKind.1 = (if r.exact then .Exact else .Prefix) ∧
      p.parseMatchKind.2.kinds = .atom r.pattern :: k :: ks := by
  cases he : r.exact with
  | true =>
    rw [he] at h
    simp only [if_true, cons_append, nil_append] at h
    simp only [parseMatchKind, peekKind_eq h, if_true]
    exact ⟨trivial, bump_kinds h⟩
  | false =>
    rw [he] at h
    simp only [Bool.false_eq_true, if_false, nil_append] at h
    simp only [parseMatchKind, peekKind_eq h, hr he, Bool.false_eq_true, if_false]
    exact ⟨trivial, h⟩

theorem parseMatcher_line (hr : r.exact = false → r.pattern ≠ ['~'])
    (h : p.kinds = (if r.exact then [.equals] else []) ++ .atom r.pattern :: (match r.predicate with
      | some (key, value) => [.lBracket, .atom key, .equals, .atom value, .rBracket]
      | none => []) ++ .arrow :: ks) :
    ∃ m q, parseMatcher p = .ok (m, q) ∧ m.erase = r.tree.matcher ∧ q.kinds = .arrow :: ks := by
  cases hp : r.predicate with
  | none =>
    simp only [hp, append_assoc, cons_append, nil_append] at h
    obtain ⟨hkind, hq⟩ := parseMatchKind_line hr h
    refine ⟨⟨p.parseMatchKind.1, ⟨r.pattern, p.parseMatchKind.2.peek.span⟩, [],
      spanTo p.peek.span p.parseMatchKind.2.peek.span.stop⟩, _, ?_, ?_, bump_kinds hq⟩
    · simp only [parseMatcher, peekKind_eq hq, peekKind_eq (bump_kinds hq)]
      rfl
    · rw [Matcher.erase, RouteLine.tree, hkind, hp]
      rfl
  | some pr =>
    obtain ⟨key, value⟩ := pr
    simp only [hp, append_assoc, cons_append, nil_append] at h
    obtain ⟨hkind, hq⟩ := parseMatchKind_line hr h
    obtain ⟨preds, stop, q, hpreds, hpe, hqk⟩ := parsePredicates_one (bump_kinds hq)
    refine ⟨⟨p.parseMatchKind.1, ⟨r.pattern, p.parseMatchKind.2.peek.span⟩, preds, spanTo p.peek.span stop⟩,
      q, ?_, ?_, hqk⟩
    · simp only [parseMatcher, peekKind_eq hq, peekKind_eq (bump_kinds hq), if_true, hpreds, ok_bind]
      rfl
    · rw [Matcher.erase, RouteLine.tree, hkind, hp, hpe]
      rfl

theorem parseStepArgsFuel_last {a : Arg} (hp : p.kinds = k :: ks) (hsep : k ≠ .sep) (hclose : k ≠ .rParen)
    (ha : parseArg p = .ok (a, q)) {ks' : List TokenKind} (hq : q.kinds = .rParen :: ks') :
    parseStepArgsFuel (n + 1) p = .ok ([a], q) := by
  have hs : p.skipSeps = p := skipSeps_eq hp hsep
  have hs' : q.skipSeps = q := skipSeps_eq hq (by simp)
  simp only [parseStepArgsFuel, hs, peekKind_eq hp, hclose, if_false, ha, ok_bind, hs', peekKind_eq hq]
  rfl

theorem parseStepArgsFuel_cons {a : Arg} {as : List Arg} {r : Parser} (hp : p.kinds = k :: ks) (hsep : k ≠ .sep)
    (hclose : k ≠ .rParen) (ha : parseArg p = .ok (a, q)) {ks' : List TokenKind} (hq : q.kinds = .comma :: ks')
    (hr : parseStepArgsFuel n q.bump = .ok (as, r)) : parseStepArgsFuel (n + 1) p = .ok (a :: as, r) := by
  have hs : p.skipSeps = p := skipSeps_eq hp hsep
  have hs' : q.skipSeps = q := skipSeps_eq hq (by simp)
  simp only [parseStepArgsFuel, hs, peekKind_eq hp, hclose, if_false, ha, ok_bind, hs', peekKind_eq hq, if_true, hr]
  rfl

theorem parseStep_args {args : List Arg} {r : Parser} (h : p.kinds = .atom name :: .lParen :: k' :: ks')
    (hargs : parseStepArgsFuel (p.bump.tokens.length + 1) p.bump.bump = .ok (args, r)) (hr : r.kinds = .rParen :: k :: ks) :
    parseStep p = .ok (⟨⟨name, p.peek.span⟩, args, true, spanTo p.peek.span r.peek.span.stop⟩, r.bump) := by
  simp only [parseStep, peekKind_eq h, peekKind_eq (bump_kinds h), if_true, hargs, ok_bind, peekKind_eq hr]
  rfl

theorem parseStep_line {arg : Str} (h : p.kinds = .atom name :: .lParen :: .atom arg :: .rParen :: k :: ks) :
    ∃ s q, parseStep p = .ok (s, q) ∧
      s.erase = ⟨⟨name, Span.zero⟩, [.positional ⟨typeAtom arg, Span.zero⟩], true, Span.zero⟩ ∧
      q.kinds = k :: ks := by
  have h2 := bump_kinds (bump_kinds h)
  have h3 := bump_kinds h2
  have hargs : parseStepArgsFuel (p.bump.tokens.length + 1) p.bump.bump =
      .ok ([.positional ⟨typeAtom arg, p.bump.bump.peek.span⟩], p.bump.bump.bump) :=
    parseStepArgsFuel_last h2 (by simp) (by simp) (parseArg_positional h2 (by simp)) h3
  refine ⟨_, _, parseStep_args h hargs h3, ?_, bump_kinds h3⟩
  rw [Step.erase, map_singleton, Arg.erase, typeAtom_erase]

/-- What a statement can be followed by on the next line. -/
def IsNext (k : TokenKind) : Prop := k ≠ .sep ∧ k ≠ .arrow

theorem parseStepsFuel_one {s : Step} (hk : IsNext k) (h : p.kinds = .arrow :: k' :: ks') (hk' : k' ≠ .sep)
    (hs : parseStep p.bump = .ok (s, q)) (hq : q.kinds = .sep :: k :: ks) (hn : 2 ≤ n) :
    parseStepsFuel n p = .ok ([s], q.skipSeps) := by
  obtain ⟨n, rfl⟩ : ∃ m, n = m + 2 := ⟨n - 2, by omega⟩
  have hs0 : p.skipSeps = p := skipSeps_eq h (by simp)
  have hs1 : p.bump.skipSeps = p.bump := skipSeps_eq (bump_kinds h) hk'
  have hne : q.skipSeps.peekKind ≠ .arrow := by
    rw [peekKind_eq (skipSeps_kinds hq hk.1)]
    exact hk.2
  simp only [parseStepsFuel, hs0, peekKind_eq h, if_true, hs1, hs, ok_bind, hne, if_false]
  rfl

theorem parseRoute_of {m : Matcher} {s : Step} {q' : Parser} (hk : IsNext k) (hm : parseMatcher p.bump = .ok (m, q))
    (hq : q.kinds = .arrow :: k' :: ks') (hk' : k' ≠ .sep) (hs : parseStep q.bump = .ok (s, q'))
    (hq' : q'.kinds = .sep :: k :: ks) : parseRoute p = .ok (⟨m, [s], spanTo p.peek.span s.span.stop⟩, q'.skipSeps) := by
  have hlen : 2 ≤ q.tokens.length + 1 := by
    rw [length_tokens, hq]
    simp
  rw [parseRoute, hm, ok_bind]
  simp only [parseStepsFuel_one hk hq hk' hs hq' hlen, ok_bind]
  rfl

/-! ### Statements -/

theorem keyword_args (hk : IsArgsEnd k) (h : p.kinds = .atom keyword :: (args.flatMap WordArg.kinds ++ k :: ks)) :
    ∃ as q, parseSpaceArgs p.bump = .ok (as, q) ∧ as.map Arg.erase = args.map tree ∧ q.kinds = k :: ks := by
  refine parseSpaceArgs_words hk ?_
  cases hks : args.flatMap WordArg.kinds ++ k :: ks with
  | nil => simp at hks
  | cons a as =>
    rw [hks] at h
    exact bump_kinds h

theorem parseStmtFuel_directive (hne : keyword ≠ "route")
    (h : p.kinds = .atom keyword :: (args.flatMap WordArg.kinds ++ .sep :: ks)) :
    ∃ s q, parseStmtFuel (n + 1) p = .ok (s, q) ∧ s.erase = (Line.directive keyword args).tree ∧ q.kinds = .sep :: ks := by
  obtain ⟨as, q, has, hase, hq⟩ := keyword_args (.inl rfl) h
  refine ⟨.directive ⟨⟨keyword, p.peek.span⟩, as,
    spanTo p.peek.span ((as.getLast?.map (·.span.stop)).getD p.peek.span.stop)⟩, q, ?_, ?_, hq⟩
  · simp only [parseStmtFuel, peekKind_eq h, hne, if_false, has, ok_bind, peekKind_eq hq]
    rfl
  · rw [Stmt.erase, Directive.erase, hase]
    rfl

theorem parseStmtFuel_route {r : Route} (h : p.kinds = .atom "route" :: ks) (hr : parseRoute p = .ok (r, q)) :
    parseStmtFuel (n + 1) p = .ok (.route r, q) := by
  simp only [parseStmtFuel, peekKind_eq h, if_true, hr, ok_bind]
  rfl

theorem parseStmtFuel_braces {as : List Arg} (hne : keyword ≠ "route") (h : p.kinds = .atom keyword :: ks)
    (has : parseSpaceArgs p.bump = .ok (as, q)) (hq : q.kinds = .lBrace :: ks') :
    parseStmtFuel (n + 1) p = (parseStmtsFuel n true q.bump).map
      (fun r => (.block ⟨keyword, p.peek.span⟩ as r.1 (spanTo p.peek.span r.2.prevSpan.stop), r.2)) := by
  simp only [parseStmtFuel, peekKind_eq h, hne, if_false, has, ok_bind, peekKind_eq hq, if_true]
  rfl

/-- Tokens of these kinds are read as one statement with this tree, whatever the next line starts with. -/
structure IsStmt (ks : List TokenKind) (t : Stmt) : Prop where
  starts : ∃ w ks', ks = .atom w :: ks'
  reads : ∀ {p : Parser} {n : Nat} {k : TokenKind} {ks' : List TokenKind}, IsNext k → p.kinds = ks ++ .sep :: k :: ks' →
    ks.length ≤ n → ∃ s q, parseStmtFuel (n + 1) p = .ok (s, q) ∧ s.erase = t ∧ q.skipSeps.kinds = k :: ks'

theorem IsStmt.directive (hne : keyword ≠ "route") (args : List WordArg) :
    IsStmt (.atom keyword :: args.flatMap WordArg.kinds) (Line.directive keyword args).tree where
  starts := ⟨_, _, rfl⟩
  reads := by
    intro p n k ks hk hp _
    obtain ⟨s, q, hs, hse, hq⟩ := parseStmtFuel_directive hne hp
    exact ⟨s, q, hs, hse, skipSeps_kinds hq hk.1⟩

theorem IsStmt.route {pattern handler : List TokenKind} {m : Matcher} {s : Step} (hpattern : pattern ≠ [])
    (hhandler : ∃ w ks, handler = .atom w :: ks)
    (hm : ∀ {p ks}, p.kinds = pattern ++ .arrow :: ks →
      ∃ m' q, parseMatcher p = .ok (m', q) ∧ m'.erase = m ∧ q.kinds = .arrow :: ks)
    (hs : ∀ {p k ks}, p.kinds = handler ++ k :: ks →
      ∃ s' q, parseStep p = .ok (s', q) ∧ s'.erase = s ∧ q.kinds = k :: ks) :
    IsStmt (.atom "route" :: pattern ++ .arrow :: handler) (.route ⟨m, [s], Span.zero⟩) where
  starts := ⟨_, _, rfl⟩
  reads := by
    intro p n k ks hk hp _
    obtain ⟨x, xs, rfl⟩ := exists_cons_of_ne_nil hpattern
    obtain ⟨w, ws, rfl⟩ := hhandler
    have hp' : p.kinds = .atom "route" :: (x :: xs ++ .arrow :: (.atom w :: ws ++ .sep :: k :: ks)) := by
      rw [hp]
      simp
    obtain ⟨m', q, hm', hme, hq⟩ := hm (bump_kinds hp')
    obtain ⟨s', q', hs', hse, hq'⟩ := hs (bump_kinds hq)
    have hroute := parseRoute_of hk hm' hq (by simp) hs' hq'
    have hend := skipSeps_kinds hq' hk.1
    refine ⟨_, _, parseStmtFuel_route hp' hroute, ?_, ?_⟩
    · rw [Stmt.erase, Route.erase, hme, map_singleton, hse]
    · rw [skipSeps_eq hend hk.1, hend]

/-- No statement can be read where these kinds stand, whatever follows them. -/
structure IsBroken (ks : List TokenKind) : Prop where
  starts : ∃ w ks', ks = .atom w :: ks'
  fails : ∀ {p : Parser} {n : Nat} {ks' : List TokenKind}, p.kinds = ks ++ ks' → ks.length ≤ n →
    ∀ r, parseStmtFuel (n + 1) p ≠ .ok r

theorem IsStmt.forall₂_map {α : Type} {l : List α} {f : α → List TokenKind} {g : α → Stmt}
    (h : ∀ a ∈ l, IsStmt (f a) (g a)) : List.Forall₂ IsStmt (l.map f) (l.map g) := by
  rwa [forall₂_map_left_iff, forall₂_map_right_iff, forall₂_same]

/-- Statements on lines of their own, after the break before the first, and what follows them. -/
def stmtsKinds (rest : List TokenKind) : List (List TokenKind) → List TokenKind
  | [] => rest
  | x :: xs => x ++ .sep :: stmtsKinds rest xs

theorem stmtsKinds_eq (rest : List TokenKind) (xs : List (List TokenKind)) :
    .sep :: stmtsKinds rest xs = xs.flatMap (.sep :: ·) ++ .sep :: rest := by
  induction xs with
  | nil => rfl
  | cons x xs ih => rw [stmtsKinds, ih, flatMap_cons, cons_append, cons_append, append_assoc]

theorem stmtsKinds_cons (h : List.Forall₂ IsStmt xs ts) (hk : IsNext k) (ks : List TokenKind) :
    ∃ k' ks', stmtsKinds (k :: ks) xs = k' :: ks' ∧ IsNext k' := by
  cases h with
  | nil => exact ⟨k, ks, rfl, hk⟩
  | cons hx _ =>
    obtain ⟨w, ks', rfl⟩ := hx.starts
    exact ⟨.atom w, _, rfl, by simp, by simp⟩

theorem length_le_flatMap (xs : List (List TokenKind)) : xs.length ≤ (xs.flatMap (TokenKind.sep :: ·)).length := by
  induction xs with
  | nil => simp
  | cons x xs ih =>
    simp only [flatMap_cons, length_append, length_cons]
    omega

theorem length_add_le_flatMap {x : List TokenKind} (hx : x ∈ xs) :
    x.length + xs.length ≤ (xs.flatMap (TokenKind.sep :: ·)).length := by
  induction xs with
  | nil => cases hx
  | cons y ys ih =>
    have hys := length_le_flatMap ys
    simp only [flatMap_cons, length_append, length_cons]
    rcases mem_cons.mp hx with rfl | hx
    · omega
    · have := ih hx
      omega

theorem parseStmtsFuel_cons {nested : Bool} {w : Str} {s : Stmt} (hp : p.skipSeps.peekKind = .atom w)
    (hs : parseStmtFuel n p.skipSeps = .ok (s, q)) :
    parseStmtsFuel (n + 1) nested p = (parseStmtsFuel n nested q).map (fun r => (s :: r.1, r.2)) := by
  rw [parseStmtsFuel]
  simp only [hp, hs, ok_bind]
  rfl

theorem parseStmtsFuel_stmts (nested : Bool) (h : List.Forall₂ IsStmt xs ts) (hk : IsNext k)
    (hp : p.skipSeps.kinds = stmtsKinds (k :: ks) xs) (hn : ∀ x ∈ xs, x.length < n) :
    ∃ ss q, Stmt.erase.eraseAll ss = ts ∧ q.skipSeps.kinds = k :: ks ∧
      parseStmtsFuel (n + xs.length) nested p = (parseStmtsFuel n nested q).map (fun r => (ss ++ r.1, r.2)) := by
  induction h generalizing p with
  | nil =>
    refine ⟨[], p, rfl, hp, ?_⟩
    cases parseStmtsFuel n nested p <;> rfl
  | @cons x t xs ts hx hxs ih =>
    obtain ⟨k', ks', hb, hk'⟩ := stmtsKinds_cons hxs hk ks
    obtain ⟨w, ws, hw⟩ := hx.starts
    rw [stmtsKinds, hb] at hp
    have hlen : x.length ≤ n - 1 + xs.length := by
      have := hn x mem_cons_self
      omega
    obtain ⟨s, q, hs, hse, hq⟩ := hx.reads hk' hp hlen
    rw [← hb] at hq
    obtain ⟨ss, r, hss, hr, hrest⟩ := ih hq (fun y hy => hn y (mem_cons_of_mem _ hy))
    have hfuel : n - 1 + xs.length + 1 = n + xs.length := by
      have := hn x mem_cons_self
      omega
    rw [hfuel] at hs
    rw [hw] at hp
    refine ⟨s :: ss, r, by rw [Stmt.erase.eraseAll, hse, hss], hr, ?_⟩
    rw [length_cons, ← Nat.add_assoc, parseStmtsFuel_cons (peekKind_eq hp) hs, hrest]
    cases parseStmtsFuel n nested r <;> rfl

theorem parseStmtsFuel_broken {nested : Bool} (hbad : IsBroken bad) (hp : p.skipSeps.kinds = bad ++ ks) (hn : bad.length < n)
    (r : List Stmt × Parser) : parseStmtsFuel (n + 1) nested p ≠ .ok r := by
  obtain ⟨w, ws, hw⟩ := hbad.starts
  have hpeek : p.skipSeps.peekKind = .atom w := by
    rw [hw] at hp
    exact peekKind_eq hp
  obtain ⟨n, rfl⟩ : ∃ m, n = m + 1 := ⟨n - 1, by omega⟩
  intro h
  rw [parseStmtsFuel] at h
  simp only [hpeek] at h
  cases hs : parseStmtFuel (n + 1) p.skipSeps with
  | error e =>
    rw [hs] at h
    cases h
  | ok s => exact hbad.fails hp (Nat.le_of_lt_succ hn) s hs

/-! ### Blocks -/

/-- A block as far as some of its statements go. -/
def openKinds (keyword : Str) (args : List WordArg) (xs : List (List TokenKind)) : List TokenKind :=
  .atom keyword :: args.flatMap WordArg.kinds ++ .lBrace :: xs.flatMap (.sep :: ·)

theorem parseStmtFuel_open (hne : keyword ≠ "route") (h : List.Forall₂ IsStmt xs ts) (hk : IsNext k)
    (hp : p.kinds = openKinds keyword args xs ++ .sep :: k :: ks) (hn : ∀ x ∈ xs, x.length < n) :
    ∃ as ss q, as.map Arg.erase = args.map tree ∧ Stmt.erase.eraseAll ss = ts ∧ q.skipSeps.kinds = k :: ks ∧
      parseStmtFuel (n + xs.length + 1) p = (parseStmtsFuel n true q).map
        (fun r => (.block ⟨keyword, p.peek.span⟩ as (ss ++ r.1) (spanTo p.peek.span r.2.prevSpan.stop), r.2)) := by
  have hkinds : p.kinds = .atom keyword :: (args.flatMap WordArg.kinds ++ .lBrace :: .sep :: stmtsKinds (k :: ks) xs) := by
    rw [hp, stmtsKinds_eq, openKinds]
    simp
  obtain ⟨as, q, has, hase, hq⟩ := keyword_args (.inr rfl) hkinds
  have hskip : q.bump.skipSeps.kinds = stmtsKinds (k :: ks) xs := by
    obtain ⟨k', ks', hb, hk'⟩ := stmtsKinds_cons h hk ks
    rw [hb] at hq ⊢
    exact skipSeps_kinds (bump_kinds hq) hk'.1
  obtain ⟨ss, r, hss, hr, hrest⟩ := parseStmtsFuel_stmts true h hk hskip hn
  refine ⟨as, ss, r, hase, hss, hr, ?_⟩
  rw [parseStmtFuel_braces hne hkinds has hq, hrest]
  cases parseStmtsFuel n true r <;> rfl

theorem length_openKinds_le (hn : (openKinds keyword args xs).length ≤ n) : xs.length < n ∧ ∀ x ∈ xs, x.length < n - xs.length := by
  simp only [openKinds, length_append, length_cons] at hn
  have hle := length_le_flatMap xs
  refine ⟨by omega, ?_⟩
  intro x hx
  have := length_add_le_flatMap hx
  omega

theorem IsStmt.block (hne : keyword ≠ "route") (args : List WordArg) (h : List.Forall₂ IsStmt xs ts) :
    IsStmt (openKinds keyword args xs ++ [.sep, .rBrace])
      (.block ⟨keyword, Span.zero⟩ (args.map tree) ts Span.zero) where
  starts := ⟨_, _, rfl⟩
  reads := by
    intro p n k ks' hk hp hn
    rw [append_assoc, cons_append, cons_append, nil_append] at hp
    rw [length_append] at hn
    obtain ⟨hlt, hlen⟩ := length_openKinds_le (Nat.le_of_add_right_le hn)
    obtain ⟨as, ss, q, has, hss, hq, hparse⟩ := parseStmtFuel_open hne h ⟨by simp, by simp⟩ hp hlen
    obtain ⟨m, hm⟩ : ∃ m, n - xs.length = m + 1 := ⟨n - xs.length - 1, by omega⟩
    have hend : parseStmtsFuel (n - xs.length) true q = .ok ([], q.skipSeps.bump) := by
      rw [hm]
      simp [parseStmtsFuel, peekKind_eq hq]
    rw [hend, Nat.sub_add_cancel (Nat.le_of_lt hlt)] at hparse
    refine ⟨_, _, hparse, ?_, ?_⟩
    · rw [Stmt.erase, has, append_nil, hss]
    · exact skipSeps_kinds (bump_kinds hq) hk.1

theorem IsBroken.block (hne : keyword ≠ "route") (args : List WordArg) (h : List.Forall₂ IsStmt xs ts)
    (hbad : IsBroken bad) :
    IsBroken (openKinds keyword args xs ++ .sep :: bad) where
  starts := ⟨_, _, rfl⟩
  fails := by
    intro p n ks' hp hn r hr
    obtain ⟨w, ws, hw⟩ := hbad.starts
    rw [append_assoc, cons_append] at hp
    rw [length_append, length_cons] at hn
    obtain ⟨hlt, hlen⟩ := length_openKinds_le (Nat.le_of_add_right_le hn)
    have hp' : p.kinds = openKinds keyword args xs ++ .sep :: .atom w :: (ws ++ ks') := by
      rw [hp, hw]
      rfl
    obtain ⟨as, ss, q, -, -, hq, hparse⟩ := parseStmtFuel_open hne h ⟨by simp, by simp⟩ hp' hlen
    rw [Nat.sub_add_cancel (Nat.le_of_lt hlt), hr] at hparse
    have hx : xs.length + bad.length + 1 < n := by
      have := length_le_flatMap xs
      simp only [openKinds, length_append, length_cons] at hn
      omega
    obtain ⟨m, hm⟩ : ∃ m, n - xs.length = m + 1 := ⟨n - xs.length - 1, by omega⟩
    cases hs : parseStmtsFuel (n - xs.length) true q with
    | error e =>
      rw [hs] at hparse
      cases hparse
    | ok s =>
      have hq' : q.skipSeps.kinds = bad ++ ks' := by
        rw [hq, hw]
        rfl
      rw [hm] at hs
      exact parseStmtsFuel_broken hbad hq' (by omega) s hs

end Parser

/-! ## Whole texts -/

theorem parse_eq_of_kinds {ks : List TokenKind} (h : kinds text = some ks) :
    ∃ p : Parser, p.kinds = ks ∧
      parse text = (parseStmtsFuel (2 * ks.length + 2) false p).map (fun r => ⟨r.1⟩) := by
  have hk := lex_kinds text
  rw [h] at hk
  obtain ⟨tokens, hlex, hkinds⟩ := Option.map_eq_some_iff.mp hk
  have hlex : lex text = .ok tokens := by
    cases hl : lex text with
    | error e => rw [hl] at hlex; cases hlex
    | ok ts => rw [hl] at hlex; cases hlex; rfl
  refine ⟨⟨(tokens.headD ⟨.eof, ⟨0, 0, 1, 1⟩⟩).span, tokens⟩, hkinds, ?_⟩
  rw [parse, hlex, ok_bind, parseTokens, ← hkinds, length_map]
  rfl

theorem parse_stmts {k : TokenKind} {ks : List TokenKind} (h : List.Forall₂ IsStmt xs ts) (hk : IsNext k)
    (hkinds : kinds text = some (xs.flatMap (.sep :: ·) ++ .sep :: k :: ks)) :
    ∃ ss q n, Stmt.erase.eraseAll ss = ts ∧ q.skipSeps.kinds = k :: ks ∧ (k :: ks).length < n ∧
      parse text = (parseStmtsFuel (n + 1) false q).map (fun r => ⟨ss ++ r.1⟩) := by
  obtain ⟨p, hp, hparse⟩ := parse_eq_of_kinds hkinds
  have hskip : p.skipSeps.kinds = stmtsKinds (k :: ks) xs := by
    obtain ⟨k', ks', hb, hk'⟩ := stmtsKinds_cons h hk ks
    rw [← stmtsKinds_eq, hb] at hp
    rw [hb]
    exact skipSeps_kinds hp hk'.1
  have hle := length_le_flatMap xs
  obtain ⟨n, hn⟩ : ∃ n, 2 * (xs.flatMap (TokenKind.sep :: ·) ++ .sep :: k :: ks).length + 2 = n + 1 + xs.length :=
    ⟨2 * (xs.flatMap (TokenKind.sep :: ·) ++ .sep :: k :: ks).length + 1 - xs.length, by
      rw [length_append]; omega⟩
  rw [length_append, length_cons] at hn
  have hlen (x) (hx : x ∈ xs) : x.length < n + 1 := by
    have := length_add_le_flatMap hx
    omega
  obtain ⟨ss, q, hss, hq, hrest⟩ := parseStmtsFuel_stmts false h hk hskip hlen
  refine ⟨ss, q, n, hss, hq, by omega, ?_⟩
  rw [hparse, length_append, length_cons, hn, hrest]
  cases parseStmtsFuel (n + 1) false q <;> rfl

theorem parse_of_stmts (h : List.Forall₂ IsStmt xs ts) (hk : kinds text = some (xs.flatMap (.sep :: ·) ++ [.sep, .eof])) :
    ∃ ast, parse text = .ok ast ∧ ast.erase = ⟨ts⟩ := by
  obtain ⟨ss, q, n, hss, hq, -, hparse⟩ := parse_stmts h ⟨by simp, by simp⟩ hk
  have hend : parseStmtsFuel (n + 1) false q = .ok ([], q.skipSeps) := by
    simp [parseStmtsFuel, peekKind_eq hq]
  rw [hend] at hparse
  refine ⟨⟨ss ++ []⟩, hparse, ?_⟩
  rw [Ast.erase, append_nil, hss]

theorem parse_of_broken (h : List.Forall₂ IsStmt xs ts) {ks : List TokenKind} (hbad : IsBroken bad)
    (hk : kinds text = some (xs.flatMap (.sep :: ·) ++ .sep :: (bad ++ ks))) (ast : Ast) : parse text ≠ .ok ast := by
  obtain ⟨w, ws, hw⟩ := hbad.starts
  rw [hw, cons_append] at hk
  obtain ⟨ss, q, n, -, hq, hn, hparse⟩ := parse_stmts h ⟨by simp, by simp⟩ hk
  intro hok
  rw [hok] at hparse
  cases hs : parseStmtsFuel (n + 1) false q with
  | error e =>
    rw [hs] at hparse
    cases hparse
  | ok r =>
    have hq' : q.skipSeps.kinds = bad ++ ks := by
      rw [hq, hw]
      rfl
    refine parseStmtsFuel_broken hbad hq' ?_ r hs
    rw [← cons_append, ← hw, length_append] at hn
    omega

/-! ## Documents -/

theorem RouteLine.isStmt (hr : r.WF) : IsStmt r.kinds (.route r.tree) := by
  have hsign : r.exact = false → r.pattern ≠ ['~'] := by
    intro _ hp
    exact (hr.pattern.chars '~' (by rw [hp]; simp)).2 rfl
  have h := IsStmt.route (by simp) ⟨r.handler, [.lParen, .atom r.arg, .rParen], rfl⟩
    (parseMatcher_line hsign) parseStep_line
  rw [RouteLine.kinds, RouteLine.tailKinds]
  rw [cons_append, append_assoc, cons_append] at h
  exact h

theorem Line.isStmt {l : Line} (hl : l.WF) : IsStmt l.kinds l.tree := by
  cases l with
  | directive keyword args => exact IsStmt.directive hl.1.2 args
  | route r => exact RouteLine.isStmt hl

theorem Block.isStmt {b : Block} (hb : b.WF) : IsStmt b.kinds b.tree := by
  have hlines : List.Forall₂ IsStmt (b.lines.map Line.kinds) (b.lines.map Line.tree) :=
    IsStmt.forall₂_map (fun l hl => Line.isStmt (hb.lines l hl))
  have h := IsStmt.block hb.keyword.2 b.args hlines
  rwa [openKinds, flatMap_map] at h

theorem Document.parse_text {d : Document} (h : d.WF) : ∃ ast, parse d.text = .ok ast ∧ ast.erase = d.tree := by
  have hblocks : List.Forall₂ IsStmt (d.blocks.map Block.kinds) (d.blocks.map Block.tree) :=
    IsStmt.forall₂_map (fun b hb => Block.isStmt (h.blocks b hb))
  refine parse_of_stmts hblocks ?_
  rw [Document.lexes h, flatMap_map]
  rfl

end Pulsate.Flow
