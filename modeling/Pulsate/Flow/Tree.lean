import Pulsate.Flow.Syntax

/-!
# Trees without positions

`erase` sets every span of a tree to zero, so that two trees can be compared up to where they were read.
-/

namespace Pulsate.Flow

def Span.zero : Span := ⟨0, 0, 0, 0⟩

def Value.erase : Value → Value
  | .array items => .array (eraseItems items)
  | v => v
where
  eraseItems : List (Spanned Value) → List (Spanned Value)
    | [] => []
    | ⟨node, _⟩ :: rest => ⟨node.erase, Span.zero⟩ :: eraseItems rest

def Arg.erase : Arg → Arg
  | .positional v => .positional ⟨v.node.erase, Span.zero⟩
  | .named name v => .named ⟨name.node, Span.zero⟩ ⟨v.node.erase, Span.zero⟩

def Predicate.erase (p : Predicate) : Predicate := { p with span := Span.zero }

def Matcher.erase (m : Matcher) : Matcher :=
  ⟨m.kind, ⟨m.pattern.node, Span.zero⟩, m.predicates.map Predicate.erase, Span.zero⟩

def Step.erase (s : Step) : Step := ⟨⟨s.name.node, Span.zero⟩, s.args.map Arg.erase, s.hasParens, Span.zero⟩

def Route.erase (r : Route) : Route := ⟨r.matcher.erase, r.steps.map Step.erase, Span.zero⟩

def Directive.erase (d : Directive) : Directive := ⟨⟨d.keyword.node, Span.zero⟩, d.args.map Arg.erase, Span.zero⟩

def Stmt.erase : Stmt → Stmt
  | .block kw args body _ => .block ⟨kw.node, Span.zero⟩ (args.map Arg.erase) (eraseAll body) Span.zero
  | .directive d => .directive d.erase
  | .route r => .route r.erase
where
  eraseAll : List Stmt → List Stmt
    | [] => []
    | s :: ss => s.erase :: eraseAll ss

def Ast.erase (ast : Ast) : Ast := ⟨Stmt.erase.eraseAll ast.stmts⟩

theorem Stmt.eraseAll_eq_map (ss : List Stmt) : Stmt.erase.eraseAll ss = ss.map Stmt.erase := by
  induction ss with
  | nil => rfl
  | cons s ss ih => rw [Stmt.erase.eraseAll, ih, List.map_cons]

/-! ## Route patterns -/

/-- The patterns of the routes in a statement, those in inner blocks included. -/
def Stmt.patterns : Stmt → List Str
  | .block _ _ body _ => patternsAll body
  | .directive _ => []
  | .route r => [r.matcher.pattern.node]
where
  patternsAll : List Stmt → List Str
    | [] => []
    | s :: ss => s.patterns ++ patternsAll ss

theorem Stmt.patternsAll_eq_flatMap (ss : List Stmt) : Stmt.patterns.patternsAll ss = ss.flatMap Stmt.patterns := by
  induction ss with
  | nil => rfl
  | cons s ss ih => rw [Stmt.patterns.patternsAll, ih, List.flatMap_cons]

mutual

theorem Stmt.patterns_erase : (s : Stmt) → s.erase.patterns = s.patterns
  | .block kw args body span => by
    rw [Stmt.erase, Stmt.patterns, Stmt.patterns, patternsAll_eraseAll body]
  | .directive d => rfl
  | .route r => rfl

theorem Stmt.patternsAll_eraseAll : (ss : List Stmt) →
    Stmt.patterns.patternsAll (Stmt.erase.eraseAll ss) = Stmt.patterns.patternsAll ss
  | [] => rfl
  | s :: ss => by
    rw [Stmt.erase.eraseAll, Stmt.patterns.patternsAll, Stmt.patterns.patternsAll, Stmt.patterns_erase s,
      Stmt.patternsAll_eraseAll ss]

end

end Pulsate.Flow
