import Pulsate.Flow.Document
import Pulsate.Flow.Lemmas.Slots
import Pulsate.Migrate.Apache
import Pulsate.Migrate.Caddy
import Pulsate.Migrate.Haproxy
import Pulsate.Migrate.Nginx

/-!
# Importing (`pulsate-migrate::import`)

The import of the four formats, and what the blocks an importer opens are meant to be read as: a token of its own for
every word of the foreign configuration, and one block of the tree for every block.
-/

namespace Pulsate.Migrate

open Lib (Iteration)
open Pulsate.Flow (TokenKind Arg Step Stmt typeAtom unescaped isQuotable IsAtom)

inductive Source
  | Nginx
  | Caddy
  | HAProxy
  | Apache
  deriving DecidableEq, Repr

/-- `import` in the source; the order is that of the HAProxy importer's map of pools. -/
def imported (order : Iteration Str (List Str)) : Source → Str → Import
  | .Nginx => Nginx.imported
  | .Caddy => Caddy.imported
  | .HAProxy => Haproxy.imported order
  | .Apache => Apache.imported

/-- The blocks that an importer opens. -/
def pieces (order : Iteration Str (List Str)) : Source → Str → List Piece
  | .Nginx => Nginx.pieces
  | .Caddy => Caddy.pieces
  | .HAProxy => Haproxy.pieces order
  | .Apache => Apache.pieces

/-! ## Tokens -/

def Handler.kinds : Handler → List TokenKind
  | .proxy target => [.atom "proxy", .lParen, .atom target, .rParen]
  | .redirect url code =>
    [.atom "redirect", .lParen, .atom "to", .equals, .str (unescaped url), .comma, .atom "status", .equals, .atom code,
      .rParen]
  | .respond code => [.atom "respond", .lParen, .atom "status", .equals, .atom code, .rParen]
  | .files dir => [.atom "files", .lParen, .str (unescaped dir), .rParen]

def Pattern.kinds (p : Pattern) : List TokenKind := (if p.exact then [.equals] else []) ++ [.atom p.path]

def Line.kinds : Line → List TokenKind
  | .target addr => [.atom "target", .atom addr]
  | .tls => [.atom "tls", .atom "auto"]
  | .route pattern handler => .atom "route" :: pattern.kinds ++ .arrow :: handler.kinds

def Piece.kinds (p : Piece) : List TokenKind :=
  .atom p.keyword.text :: p.words.map .atom ++ .lBrace :: p.lines.flatMap (fun l => .sep :: l.kinds) ++ [.sep, .rBrace]

/-- The tokens of a Flow text of these blocks. -/
def tokens (ps : List Piece) : List TokenKind := ps.flatMap (fun p => .sep :: p.kinds) ++ [.sep, .eof]

/-! ## Trees -/

def Handler.tree : Handler → Step
  | .proxy target => ⟨⟨"proxy", .zero⟩, [.positional ⟨typeAtom target, .zero⟩], true, .zero⟩
  | .redirect url code =>
    ⟨⟨"redirect", .zero⟩, [.named ⟨"to", .zero⟩ ⟨.str (unescaped url), .zero⟩,
      .named ⟨"status", .zero⟩ ⟨typeAtom code, .zero⟩], true, .zero⟩
  | .respond code => ⟨⟨"respond", .zero⟩, [.named ⟨"status", .zero⟩ ⟨typeAtom code, .zero⟩], true, .zero⟩
  | .files dir => ⟨⟨"files", .zero⟩, [.positional ⟨.str (unescaped dir), .zero⟩], true, .zero⟩

def Line.tree : Line → Stmt
  | .target addr => .directive ⟨⟨"target", .zero⟩, [.positional ⟨typeAtom addr, .zero⟩], .zero⟩
  | .tls => .directive ⟨⟨"tls", .zero⟩, [.positional ⟨typeAtom "auto", .zero⟩], .zero⟩
  | .route pattern handler =>
    .route ⟨⟨if pattern.exact then .Exact else .Prefix, ⟨pattern.path, .zero⟩, [], .zero⟩, [handler.tree], .zero⟩

def Piece.tree (p : Piece) : Stmt :=
  .block ⟨p.keyword.text, .zero⟩ (p.words.map (fun w => .positional ⟨typeAtom w, .zero⟩)) (p.lines.map Line.tree) .zero

/-- A Flow text is read as these blocks. No character of a foreign word breaks or extends what was generated: every
word is one token, and the tree has these blocks and lines and no others. -/
structure IsReadAs (flow : Str) (ps : List Piece) : Prop where
  tokens : (Flow.lex flow).map (·.map Flow.Token.kind) = .ok (tokens ps)
  tree : ∃ ast, Flow.parse flow = .ok ast ∧ ast.erase.stmts = ps.map Piece.tree

/-! ## Safe words -/

/-- The words are bare words, or literals where the template quotes them. -/
def Handler.Fits : Handler → Prop
  | .proxy target => IsAtom target
  | .redirect url code => isQuotable url ∧ IsAtom code
  | .respond code => IsAtom code
  | .files dir => isQuotable dir

def Line.Fits : Line → Prop
  | .target addr => IsAtom addr
  | .tls => True
  | .route pattern handler => IsAtom pattern.path ∧ handler.Fits

/-- The pattern is not the sign of a regular expression. -/
def Line.Unsigned : Line → Prop
  | .route pattern _ => pattern.exact = false → pattern.path ≠ ['~']
  | _ => True

structure Piece.Safe (p : Piece) : Prop where
  words : ∀ w ∈ p.words, IsAtom w
  fits : ∀ l ∈ p.lines, l.Fits
  unsigned : ∀ l ∈ p.lines, l.Unsigned

end Pulsate.Migrate
