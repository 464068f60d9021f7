import Pulsate.Flow.Tree
import Pulsate.Flow.Value

/-!
# Writing Flow

A document of blocks whose lines are directives with bare words as arguments, or routes to one handler.
Each part says how it is written, which tokens that makes and which tree they parse to.
-/

namespace Pulsate.Flow

/-- An argument that is a bare word, with or without a name. -/
inductive WordArg
  | positional (word : Str)
  | named (name word : Str)
  deriving DecidableEq, Repr

namespace WordArg

def text : WordArg → Str
  | .positional word => word
  | .named name word => name ++ "=" ++ word

def kinds : WordArg → List TokenKind
  | .positional word => [.atom word]
  | .named name word => [.atom name, .equals, .atom word]

def tree : WordArg → Arg
  | .positional word => .positional ⟨typeAtom word, Span.zero⟩
  | .named name word => .named ⟨name, Span.zero⟩ ⟨typeAtom word, Span.zero⟩

end WordArg

/-- A route to a handler with one argument, with at most one predicate. -/
structure RouteLine where
  exact : Bool
  pattern : Str
  predicate : Option (Str × Str)
  handler : Str
  arg : Str
  deriving DecidableEq, Repr

namespace RouteLine

/-- What follows the pattern: the predicate, if there is one, and the handler. -/
def tailText (r : RouteLine) : Str :=
  (match r.predicate with
    | some (key, value) => " [" ++ key ++ "=" ++ value ++ "]"
    | none => []) ++ " ~> " ++ r.handler ++ "(" ++ r.arg ++ ")"

def tailKinds (r : RouteLine) : List TokenKind :=
  (match r.predicate with
    | some (key, value) => [.lBracket, .atom key, .equals, .atom value, .rBracket]
    | none => []) ++ [.arrow, .atom r.handler, .lParen, .atom r.arg, .rParen]

def text (r : RouteLine) : Str :=
  "route ".toList ++ (if r.exact then "= ".toList else []) ++ r.pattern ++ r.tailText

def kinds (r : RouteLine) : List TokenKind :=
  .atom "route" :: (if r.exact then [.equals] else []) ++ .atom r.pattern :: r.tailKinds

def tree (r : RouteLine) : Route where
  matcher :=
    { kind := if r.exact then .Exact else .Prefix
      pattern := ⟨r.pattern, Span.zero⟩
      predicates := r.predicate.toList.map (fun p => ⟨p.1, valueToLexeme (typeAtom p.2), Span.zero⟩)
      span := Span.zero }
  steps := [⟨⟨r.handler, Span.zero⟩, [.positional ⟨typeAtom r.arg, Span.zero⟩], true, Span.zero⟩]
  span := Span.zero

end RouteLine

inductive Line
  | directive (keyword : Str) (args : List WordArg)
  | route (r : RouteLine)
  deriving DecidableEq, Repr

namespace Line

def text : Line → Str
  | .directive keyword args => keyword ++ args.flatMap (fun a => ' ' :: a.text)
  | .route r => r.text

def kinds : Line → List TokenKind
  | .directive keyword args => .atom keyword :: args.flatMap WordArg.kinds
  | .route r => r.kinds

def tree : Line → Stmt
  | .directive keyword args => .directive ⟨⟨keyword, Span.zero⟩, args.map WordArg.tree, Span.zero⟩
  | .route r => .route r.tree

end Line

structure Block where
  keyword : Str
  args : List WordArg
  lines : List Line
  deriving DecidableEq, Repr

namespace Block

def text (b : Block) : Str :=
  b.keyword ++ b.args.flatMap (fun a => ' ' :: a.text) ++ " \x7b".toList ++
    b.lines.flatMap (fun l => "\n  ".toList ++ l.text) ++ "\n\x7d".toList

def kinds (b : Block) : List TokenKind :=
  .atom b.keyword :: b.args.flatMap WordArg.kinds ++ .lBrace :: b.lines.flatMap (fun l => .sep :: l.kinds) ++
    [.sep, .rBrace]

def tree (b : Block) : Stmt :=
  .block ⟨b.keyword, Span.zero⟩ (b.args.map WordArg.tree) (b.lines.map Line.tree) Span.zero

end Block

/-- A comment and the blocks below it. -/
structure Document where
  comment : Str
  blocks : List Block
  deriving DecidableEq, Repr

namespace Document

def text (d : Document) : Str :=
  "#".toList ++ d.comment ++ "\n".toList ++ d.blocks.flatMap (fun b => "\n".toList ++ b.text ++ "\n".toList)

def kinds (d : Document) : List TokenKind := d.blocks.flatMap (fun b => .sep :: b.kinds) ++ [.sep, .eof]

def tree (d : Document) : Ast := ⟨d.blocks.map Block.tree⟩

end Document

end Pulsate.Flow
