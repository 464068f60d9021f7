import Pulsate.Std.Str

/-!
# The syntax of Flow (`pulsate-flow`)

Spans, diagnostics, tokens, typed values and the syntax tree. The tree is the parser's: it knows the
shape of blocks, directives and routes, not their meaning.
-/

namespace Pulsate.Flow

/-! ## Spans and diagnostics -/

structure Span where
  offset : Nat
  len : Nat
  line : UInt32
  col : UInt32
  deriving DecidableEq, Repr

/-- The byte offset just after the span (`end` in the source). -/
def Span.stop (s : Span) : Nat := s.offset + s.len

/-- The error codes of the configuration layer. -/
inductive Code
  | cfgSyntax
  | cfgTypeMismatch
  | cfgMissingField
  | cfgUnknownRef
  | cfgHostCollision
  | cfgMultiHandler
  | cfgDuplicate
  | cfgInvalidCors
  deriving DecidableEq, Repr

inductive Severity
  | error
  | warning
  deriving DecidableEq, Repr

structure Diagnostic where
  severity : Severity
  code : Code
  message : Str
  span : Span
  help : Option Str
  deriving DecidableEq, Repr

def Diagnostic.error (code : Code) (message : Str) (span : Span) : Diagnostic :=
  ⟨.error, code, message, span, none⟩

def Diagnostic.withHelp (d : Diagnostic) (help : Str) : Diagnostic := { d with help := some help }

/-- How reading a text ends without a result: with a diagnostic, with a panic (an index that is not on a
character boundary), or because the model's own step bound ran out. -/
inductive Failure
  | diag (d : Diagnostic)
  | panic
  | outOfFuel
  deriving DecidableEq, Repr

/-! ## Tokens -/

inductive TokenKind
  | lBrace
  | rBrace
  | lParen
  | rParen
  | lBracket
  | rBracket
  | comma
  | equals
  | arrow
  | sep
  | str (s : Str)
  | env (inner : Str)
  | atom (s : Str)
  | eof
  deriving DecidableEq, Repr

structure Token where
  kind : TokenKind
  span : Span
  deriving DecidableEq, Repr

/-! ## Values -/

inductive RateWindow
  | second
  | minute
  | hour
  deriving DecidableEq, Repr

/-- `std::time::Duration`. -/
structure Duration where
  secs : Nat
  nanos : Nat
  deriving DecidableEq, Repr

structure Spanned (α : Type) where
  node : α
  span : Span
  deriving DecidableEq, Repr

/-- A typed value. A float is kept as the digits it was written with. -/
inductive Value
  | str (s : Str)
  | int (i : Int)
  | float (digits : Str)
  | bool (b : Bool)
  | duration (d : Duration)
  | size (n : Nat)
  | rate (count : Nat) (per : RateWindow)
  | array (items : List (Spanned Value))
  | ref (name : Str)
  | secret (name : Str)
  | env (var : Str) (default : Option Str)
  deriving Repr

/-! ## The tree -/

inductive Arg
  | positional (value : Spanned Value)
  | named (name : Spanned Str) (value : Spanned Value)
  deriving Repr

def Arg.span : Arg → Span
  | .positional v => v.span
  | .named name value =>
    ⟨name.span.offset, value.span.stop - name.span.offset, name.span.line, name.span.col⟩

/-- How a route pattern is matched. -/
inductive MatchKind
  | Prefix
  | Exact
  | Regex
  deriving DecidableEq, Repr

structure Predicate where
  key : Str
  value : Str
  span : Span
  deriving DecidableEq, Repr

structure Matcher where
  kind : MatchKind
  pattern : Spanned Str
  predicates : List Predicate
  span : Span
  deriving DecidableEq, Repr

structure Step where
  name : Spanned Str
  args : List Arg
  hasParens : Bool
  span : Span
  deriving Repr

structure Route where
  matcher : Matcher
  steps : List Step
  span : Span
  deriving Repr

structure Directive where
  keyword : Spanned Str
  args : List Arg
  span : Span
  deriving Repr

inductive Stmt
  | block (keyword : Spanned Str) (args : List Arg) (body : List Stmt) (span : Span)
  | directive (d : Directive)
  | route (r : Route)
  deriving Repr

structure Ast where
  stmts : List Stmt
  deriving Repr

end Pulsate.Flow
