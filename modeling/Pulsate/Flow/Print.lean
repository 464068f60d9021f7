import Pulsate.Flow.Parser

/-!
# Printing the tree

Which tokens a tree stands for, in the order of the grammar. A value has several spellings, so printing is a relation. The
kinds of tokens that only separate others are left out.
-/

namespace Pulsate.Flow

/-- The kinds of the tokens, without those that separate. -/
def significant (tokens : List Token) : List TokenKind :=
  (tokens.map Token.kind).filter (fun kind => decide (kind ≠ .sep ∧ kind ≠ .comma))

/-! ## Tokens -/

/-- A list is printed item by item. -/
inductive PrintsEach {α : Type} (prints : α → List TokenKind → Prop) : List α → List TokenKind → Prop
  | nil : PrintsEach prints [] []
  | cons {x : α} {xs : List α} {ks ks' : List TokenKind} :
      prints x ks → PrintsEach prints xs ks' → PrintsEach prints (x :: xs) (ks ++ ks')

inductive Value.Prints : Value → List TokenKind → Prop
  | str (s : Str) : Prints (.str s) [.str s]
  | atom (raw : Str) : Prints (typeAtom raw) [.atom raw]
  | env (inner : Str) : Prints (typeEnv inner) [.env inner]
  | array {items : List (Spanned Value)} {ks : List TokenKind} :
      PrintsEach (fun v => Prints v.node) items ks → Prints (.array items) (.lBracket :: (ks ++ [.rBracket]))

def Arg.Prints : Arg → List TokenKind → Prop
  | .positional v, ks => v.node.Prints ks
  | .named name v, ks => ∃ vs, v.node.Prints vs ∧ ks = .atom name.node :: .equals :: vs

/-- A key alone, or a key and a value that is kept as a text. -/
inductive Predicate.Prints : Predicate → List TokenKind → Prop
  | bare (key : Str) (span : Span) : Prints ⟨key, ['*'], span⟩ [.atom key]
  | value (key : Str) {v : Value} {ks : List TokenKind} (span : Span) :
      v.Prints ks → Prints ⟨key, valueToLexeme v, span⟩ (.atom key :: .equals :: ks)

def MatchKind.marker : MatchKind → List TokenKind
  | .Prefix => []
  | .Exact => [.equals]
  | .Regex => [.atom ['~']]

/-- Brackets around no predicates may be left out. -/
inductive PrintsBracket : List Predicate → List TokenKind → Prop
  | none : PrintsBracket [] []
  | some {preds : List Predicate} {ks : List TokenKind} :
      PrintsEach Predicate.Prints preds ks → PrintsBracket preds (.lBracket :: (ks ++ [.rBracket]))

def Matcher.Prints (m : Matcher) (ks : List TokenKind) : Prop :=
  ∃ preds, PrintsBracket m.predicates preds ∧ ks = m.kind.marker ++ .atom m.pattern.node :: preds

inductive Step.Prints : Step → List TokenKind → Prop
  | plain (name : Spanned Str) (span : Span) : Prints ⟨name, [], false, span⟩ [.arrow, .atom name.node]
  | parens (name : Spanned Str) {args : List Arg} {ks : List TokenKind} (span : Span) : PrintsEach Arg.Prints args ks →
      Prints ⟨name, args, true, span⟩ (.arrow :: .atom name.node :: .lParen :: (ks ++ [.rParen]))

def Route.Prints (r : Route) (ks : List TokenKind) : Prop :=
  ∃ matcher steps, r.matcher.Prints matcher ∧ PrintsEach Step.Prints r.steps steps ∧
    ks = .atom "route" :: (matcher ++ steps)

inductive Stmt.Prints : Stmt → List TokenKind → Prop
  | directive {d : Directive} {ks : List TokenKind} :
      PrintsEach Arg.Prints d.args ks → Prints (.directive d) (.atom d.keyword.node :: ks)
  | route {r : Route} {ks : List TokenKind} : r.Prints ks → Prints (.route r) ks
  | block {keyword : Spanned Str} {args : List Arg} {body : List Stmt} {span : Span} {ks ks' : List TokenKind} :
      PrintsEach Arg.Prints args ks → PrintsEach Prints body ks' →
      Prints (.block keyword args body span) (.atom keyword.node :: (ks ++ .lBrace :: (ks' ++ [.rBrace])))

def Ast.Prints (ast : Ast) (ks : List TokenKind) : Prop :=
  ∃ stmts, PrintsEach Stmt.Prints ast.stmts stmts ∧ ks = stmts ++ [.eof]

/-! ## Spans -/

/-- The second span comes behind the first one. -/
def Span.Precedes (s s' : Span) : Prop := s.offset < s'.offset ∧ s.stop ≤ s'.offset

/-- The spans of the children lie inside, one behind another. -/
structure Span.Encloses (span : Span) (children : List Span) : Prop where
  inside : ∀ c ∈ children, span.offset ≤ c.offset ∧ c.stop ≤ span.stop
  inOrder : children.Pairwise Span.Precedes

inductive Spanned.IsNested : Spanned Value → Prop
  | leaf {v : Spanned Value} : (∀ items, v.node ≠ .array items) → IsNested v
  | array {items : List (Spanned Value)} {span : Span} :
      span.Encloses (items.map (·.span)) → (∀ v ∈ items, IsNested v) → IsNested ⟨.array items, span⟩

def Arg.IsNested : Arg → Prop
  | .positional v => v.IsNested
  | .named name v => (Arg.named name v).span.Encloses [name.span, v.span] ∧ v.IsNested

def Matcher.IsNested (m : Matcher) : Prop := m.span.Encloses (m.pattern.span :: m.predicates.map (·.span))

structure Step.IsNested (s : Step) : Prop where
  encloses : s.span.Encloses (s.name.span :: s.args.map Arg.span)
  args : ∀ a ∈ s.args, a.IsNested

structure Route.IsNested (r : Route) : Prop where
  encloses : r.span.Encloses (r.matcher.span :: r.steps.map (·.span))
  matcher : r.matcher.IsNested
  steps : ∀ s ∈ r.steps, s.IsNested

def Stmt.span : Stmt → Span
  | .block _ _ _ span => span
  | .directive d => d.span
  | .route r => r.span

inductive Stmt.IsNested : Stmt → Prop
  | directive {d : Directive} : d.span.Encloses (d.keyword.span :: d.args.map Arg.span) → (∀ a ∈ d.args, a.IsNested) →
      IsNested (.directive d)
  | route {r : Route} : r.IsNested → IsNested (.route r)
  | block {keyword : Spanned Str} {args : List Arg} {body : List Stmt} {span : Span} :
      span.Encloses (keyword.span :: (args.map Arg.span ++ body.map Stmt.span)) → (∀ a ∈ args, a.IsNested) →
      (∀ s ∈ body, IsNested s) → IsNested (.block keyword args body span)

structure Ast.IsNested (ast : Ast) : Prop where
  inOrder : (ast.stmts.map Stmt.span).Pairwise Span.Precedes
  stmts : ∀ s ∈ ast.stmts, s.IsNested

end Pulsate.Flow
