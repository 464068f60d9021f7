import Pulsate.Std.Words

/-!
# What the importers share (`pulsate-migrate`)

The notes of an import, the accumulator of its Flow text, and the blocks the text is made of: a header and lines, each
a template filled in with words of the foreign configuration.
-/

namespace Pulsate.Migrate

inductive Fidelity
  | Exact
  | Approximate
  | Manual
  | Dropped
  deriving DecidableEq, Repr

structure Note where
  directive : Str
  fidelity : Fidelity
  message : Str
  deriving DecidableEq, Repr

structure Import where
  flow : Str
  notes : List Note
  deriving DecidableEq, Repr

structure Builder where
  flow : Str
  notes : List Note
  indent : Nat
  deriving DecidableEq, Repr

namespace Builder

def empty : Builder := ⟨[], [], 0⟩

def line (b : Builder) (s : Str) : Builder :=
  { b with flow := b.flow ++ (List.replicate b.indent "  ".toList).flatten ++ s ++ "\n".toList }

/-- `open` in the source. -/
def openBlock (b : Builder) (s : Str) : Builder := { b.line s with indent := b.indent + 1 }

def close (b : Builder) : Builder := { b with indent := b.indent - 1 }.line "\x7d"

def note (b : Builder) (directive : Str) (fidelity : Fidelity) (message : Str) : Builder :=
  { b with notes := b.notes ++ [⟨directive, fidelity, message⟩] }

def finish (b : Builder) : Import := ⟨b.flow, b.notes⟩

end Builder

/-! ## Templates -/

/-- A terminal handler, by the words it is written with. -/
inductive Handler
  | proxy (target : Str)
  | redirect (url code : Str)
  | respond (code : Str)
  | files (dir : Str)
  deriving DecidableEq, Repr

def Handler.text : Handler → Str
  | .proxy target => "proxy(" ++ target ++ ")"
  | .redirect url code => "redirect(to=\"" ++ url ++ "\", status=" ++ code ++ ")"
  | .respond code => "respond(status=" ++ code ++ ")"
  | .files dir => "files(\"" ++ dir ++ "\")"

/-- A route pattern; an exact one is written after `= `. -/
structure Pattern where
  exact : Bool
  path : Str
  deriving DecidableEq, Repr

def Pattern.text (p : Pattern) : Str := (if p.exact then "= ".toList else []) ++ p.path

/-- The pattern of every path, `/*`. -/
def Pattern.all : Pattern := ⟨false, "/*"⟩

/-- The pattern of the paths below one, `{path}/*`. -/
def Pattern.below (path : Str) : Pattern := ⟨false, path.trimEndMatches '/' ++ "/*"⟩

/-- A line inside a block. -/
inductive Line
  | target (addr : Str)
  | tls
  | route (pattern : Pattern) (handler : Handler)
  deriving DecidableEq, Repr

def Line.text : Line → Str
  | .target addr => "target " ++ addr
  | .tls => "tls auto"
  | .route pattern handler => "route " ++ pattern.text ++ " ~> " ++ handler.text

inductive Keyword
  | upstream
  | site
  deriving DecidableEq, Repr

def Keyword.text : Keyword → Str
  | .upstream => "upstream"
  | .site => "site"

/-- The line that opens a block, `{keyword} {words} {`. -/
def header (keyword : Keyword) (words : List Str) : Str :=
  keyword.text ++ " " ++ [' '].intercalate words ++ " \x7b"

/-- `with_scheme` of the nginx, HAProxy and Caddy importers. -/
def withScheme (addr : Str) : Str := if addr.contains "://" then addr else "http://" ++ addr

/-- The line of a placeholder. -/
def placeholder : Line := .route .all (.respond "404")

/-! ## Blocks -/

/-- A block that an importer opens, fills and closes. -/
structure Piece where
  keyword : Keyword
  words : List Str
  lines : List Line
  deriving DecidableEq, Repr

namespace Piece

/-- The lines of its text, with their indentation. -/
def textLines (p : Piece) : List Str :=
  header p.keyword p.words :: p.lines.map (fun l => "  ".toList ++ l.text) ++ ["\x7d".toList]

def text (p : Piece) : Str := p.textLines.flatMap (fun l => l ++ "\n")

end Piece

end Pulsate.Migrate
