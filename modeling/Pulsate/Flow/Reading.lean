import Pulsate.Flow.Parser

/-!
# Reading a text character by character

What a reader of a Flow text sees: where it stands in the text, in which kind of token each character is, and where a
diagnostic points. Nothing here counts bytes, except for the lexer with checks, which reads as the lexer does and fails
where an index is out of bounds.
-/

namespace Pulsate.Flow

/-! ## Places -/

/-- The part of the last line. -/
def lastLine (pre : Str) : Str := pre.rtakeWhile (· ≠ '\n')

/-- The span starts behind `pre`, with the line and the column of that place, counted in characters from one. -/
structure Span.IsAt (span : Span) (pre : Str) : Prop where
  offset : span.offset = pre.len
  line : span.line.toNat = 1 + pre.count '\n'
  col : span.col.toNat = 1 + (lastLine pre).length

/-- The span starts at a character of the text, or at its end, and tells where. -/
def Span.IsLocated (span : Span) (text : Str) : Prop := ∃ pre rest, text = pre ++ rest ∧ span.IsAt pre

/-! ## Token streams -/

/-- The byte at `i` is inside one of the tokens. -/
def IsCovered (tokens : List Token) (i : Nat) : Prop := ∃ t ∈ tokens, t.span.offset ≤ i ∧ i < t.span.stop

/-- The byte at `i` belongs to a comment: it comes behind a `#` that is in no token, on the same line. -/
def IsCommented (text : Str) (tokens : List Token) (i : Nat) : Prop :=
  ∃ j ≤ i, text.bytes[j]? = some 35 ∧ ∀ k, j ≤ k → k ≤ i → ¬ IsCovered tokens k ∧ text.bytes[k]? ≠ some 10

/-- The tokens partition the text: they follow one another in it, what is between them is blank or commented, and each
of them is what its own text alone is read as. -/
structure IsPartition (text : Str) (tokens : List Token) : Prop where
  eof : ∃ init e, tokens = init ++ [e] ∧ e.kind = .eof ∧ (∀ t ∈ init, t.kind ≠ .eof) ∧
    e.span.offset = text.len ∧ e.span.len = 0
  inBounds : ∀ t ∈ tokens, t.span.stop ≤ text.len
  inOrder : tokens.Pairwise (fun t t' => t.span.offset < t'.span.offset ∧ t.span.stop ≤ t'.span.offset)
  between : ∀ i < text.len, ¬ IsCovered tokens i →
    (∃ b ∈ [32, 9, 13], text.bytes[i]? = some b) ∨ IsCommented text tokens i
  apart : tokens.IsChain (fun t t' => ¬ (t.kind = .sep ∧ t'.kind = .sep))
  alone : ∀ t ∈ tokens, t.kind ≠ .eof → ∃ body, text.slice t.span.offset t.span.stop = some body ∧
    (lex body).map (·.map Token.kind) = .ok [t.kind, .eof]

/-- The line of each token is one more than the line breaks before it. -/
def HasLines (text : Str) (tokens : List Token) : Prop :=
  ∀ t ∈ tokens, t.span.line.toNat = 1 + (text.bytes.take t.span.offset).count 10

/-! ## Quoting -/

/-- A string literal that stands for a string. -/
def quoted (s : Str) : Str :=
  '"' :: s.flatMap (fun c => if c = '\\' ∨ c = '"' then ['\\', c] else [c]) ++ ['"']

/-! ## Kinds of characters -/

/-- What a reader is in the middle of. -/
inductive Mode
  | gap
  | comment
  | seps
  | sepsComment
  | atom
  | arrow
  | string
  | escape
  | env
  deriving DecidableEq, Repr

/-- The first character of a token, before the next one. -/
def Mode.first (c : Char) (next : Option Char) : Mode :=
  if isSeparator c then .seps
  else if (Lexer.single c).isSome then .gap
  else if c = '~' ∧ next = some '>' then .arrow
  else if c = '"' then .string
  else if c = '$' ∧ next = some '{' then .env
  else .atom

/-- A character between tokens; the flag tells whether it starts one. -/
def Mode.between (c : Char) (next : Option Char) : Bool × Mode :=
  if isHorizontal c then (false, .gap)
  else if c = '#' then (false, .comment)
  else (true, Mode.first c next)

/-- Reads a character, before the next one. The flag tells whether it starts a token. -/
def Mode.step (m : Mode) (c : Char) (next : Option Char) : Bool × Mode :=
  match m with
  | .gap => Mode.between c next
  | .comment => if c = '\n' then (true, .seps) else (false, .comment)
  | .seps =>
    if isSeparator c || isHorizontal c then (false, .seps)
    else if c = '#' then (false, .sepsComment)
    else Mode.between c next
  | .sepsComment => (false, if c = '\n' then .seps else .sepsComment)
  | .atom => if isAtomEnd c || (c == '~' && next == some '>') then Mode.between c next else (false, .atom)
  | .arrow => (false, .gap)
  | .string => (false, if c = '"' then .gap else if c = '\\' then .escape else .string)
  | .escape => (false, .string)
  | .env => (false, if c = '}' then .gap else .env)

/-- The places where tokens start. -/
def starts (m : Mode) (pre : Str) : Str → List Str
  | [] => []
  | c :: s =>
    (if (m.step c s.head?).1 then [pre] else []) ++ starts (m.step c s.head?).2 (pre ++ [c]) s

/-- What the reader is in the middle of at the end. -/
def Mode.after (m : Mode) : Str → Mode
  | [] => m
  | c :: s => (m.step c s.head?).2.after s

/-- A literal or a reference is still open. -/
def Mode.isOpen (m : Mode) : Bool := m == .string || m == .escape || m == .env

/-- A backslash in a string literal stands before a character of several bytes. -/
def hasWideEscape (m : Mode) : Str → Bool
  | [] => false
  | c :: s => (m == .escape && decide (128 ≤ c.toNat)) || hasWideEscape (m.step c s.head?).2 s

/-- The places that the lexer and the parser can report: the starts of the tokens and the end of the text, or the start
of what is not closed. -/
def reported (text : Str) : List Str :=
  if hasWideEscape .gap text then []
  else if (Mode.after .gap text).isOpen then (starts .gap [] text).getLast?.toList
  else starts .gap [] text ++ [text]

/-! ## Pointing at a place -/

/-- A named text, for rendering. -/
structure Source where
  name : Str
  text : Str
  deriving DecidableEq, Repr

def Source.lineStarts (source : Source) : List Nat :=
  0 :: (source.text.bytes.zipIdx.filter (fun b => Char.ofUInt8 b.1 = '\n')).map (·.2 + 1)

/-- The text of a line without its end, or nothing where the cut panics. -/
def Source.lineText (source : Source) (line : UInt32) : Option Str :=
  let idx := line.toNat - 1
  let start := (source.lineStarts[idx]?).getD 0
  let stop := (source.lineStarts[idx + 1]?).getD source.text.len
  (source.text.slice start stop).map (·.rdropWhile (fun c => c = '\n' || c = '\r'))

def Severity.text : Severity → Str
  | .error => "error"
  | .warning => "warning"

/-- The number of a code in its area. -/
def Code.number : Code → Nat
  | .cfgSyntax => 1
  | .cfgTypeMismatch => 3
  | .cfgMissingField => 5
  | .cfgUnknownRef => 7
  | .cfgHostCollision => 10
  | .cfgMultiHandler => 12
  | .cfgDuplicate => 20
  | .cfgInvalidCors => 21

def Code.text (code : Code) : Str :=
  "PLS-CFG-" ++ List.replicate (4 - (natText code.number).length) '0' ++ natText code.number

namespace Diagnostic

/-- The number of the line, in front of its text. -/
def gutter (d : Diagnostic) : Str := natText d.span.line.toNat

/-- As many blanks. -/
def pad (d : Diagnostic) : Str := List.replicate d.gutter.length ' '

def underline (d : Diagnostic) : Str :=
  List.replicate (d.span.col.toNat - 1) ' ' ++ List.replicate (max d.span.len 1) '^'

/-- The line that shows the source. -/
def shown (d : Diagnostic) (lineText : Str) : Str := d.gutter ++ " │ " ++ lineText

/-- The line below it. -/
def marked (d : Diagnostic) : Str := d.pad ++ " │ " ++ d.underline

/-- The lines of the rendered diagnostic, or nothing where the line cannot be cut out of the source. -/
def renderLines (d : Diagnostic) (source : Source) : Option (List Str) :=
  (source.lineText d.span.line).map (fun lineText =>
    [d.severity.text ++ "[" ++ d.code.text ++ "]: " ++ d.message,
      d.pad ++ "┌─ " ++ source.name ++ ":" ++ natText d.span.line.toNat ++ ":" ++
        natText d.span.col.toNat,
      d.pad ++ " │",
      d.shown lineText,
      d.marked] ++ d.help.toList.map (fun help => d.pad ++ " = help: " ++ help))

def render (d : Diagnostic) (source : Source) : Option Str :=
  (d.renderLines source).map (·.flatMap (· ++ "\n"))

/-- The caret starts under the character at the offset of the span: the line that is shown is the one that holds the
character, and as many characters stand before the caret as before the character. -/
def PointsInto (d : Diagnostic) (source : Source) : Prop :=
  ∃ pre rest lineText, source.text = pre ++ rest ∧ d.span.offset = pre.len ∧
    source.lineText d.span.line = some lineText ∧
    lineText = (lastLine pre ++ rest.takeWhile (· ≠ '\n')).rdropWhile (· = '\r') ∧
    (d.marked.takeWhile (· ≠ '^')).length = (d.shown []).length + (lastLine pre).length

end Diagnostic

/-! ## Places of tokens and diagnostics -/

/-- The tokens and the diagnostics of a text tell where they are, and the carets stand under them. -/
structure Located (text : Str) : Prop where
  tokens : ∀ tokens, lex text = .ok tokens → ∀ t ∈ tokens, t.span.IsLocated text
  diagnostics : ∀ d, parse text = .error (.diag d) → d.span.IsLocated text ∧ ∀ name, d.PointsInto ⟨name, text⟩

/-- The line and the column behind `pre` can be told, and the column is the number of characters. -/
def Countable (pre : Str) : Prop :=
  1 + pre.count '\n' < 2 ^ 32 ∧ (1 + (lastLine pre).len) % 2 ^ 32 = 1 + (lastLine pre).length

/-! ## The lexer with checks

`bump` of the source indexes the bytes with `self.bytes[self.pos]`. -/

namespace Lexer.Checked

def bump (lx : Lexer) : Except Failure Lexer :=
  match lx.bytes with
  | [] => .error .panic
  | _ :: _ => .ok lx.bump

def bumps (lx : Lexer) : Nat → Except Failure Lexer
  | 0 => .ok lx
  | n + 1 => do
    let lx ← bump lx
    bumps lx n

def slice (text : Str) (start stop : Nat) : Except Failure Str :=
  match text.slice start stop with
  | some s => .ok s
  | none => .error .panic

def stringBody (start : Lexer) : Nat → Lexer → Str → Except Failure (Token × Lexer)
  | 0, _, _ => .error .outOfFuel
  | fuel + 1, lx, value =>
    match lx.bytes with
    | [] =>
      .error (.diag ((Diagnostic.error .cfgSyntax "unterminated string literal"
        (start.spanFrom lx)).withHelp "add a closing `\"`"))
    | b :: rest =>
      if Char.ofUInt8 b = '"' then do
        let stop ← bump lx
        return (⟨.str value, start.spanFrom stop⟩, stop)
      else if Char.ofUInt8 b = '\\' then do
        let next ← bump lx
        match next.peek with
        | some c => do
          let next ← bump next
          stringBody start fuel next (value ++ [unescape c])
        | none => stringBody start fuel next value
      else do
        let next ← bumps lx (1 + (rest.takeWhile isContinuation).length)
        let chars ← slice lx.text lx.pos next.pos
        stringBody start fuel next (value ++ chars)

def lexString (lx : Lexer) : Except Failure (Token × Lexer) := do
  let inner ← bump lx
  stringBody lx (lx.bytes.length + 1) inner []

def lexEnv (lx : Lexer) : Except Failure (Token × Lexer) := do
  let inner ← bumps lx 2
  let stop ← bumps inner (inner.bytes.takeWhile (fun b => Char.ofUInt8 b ≠ '}')).length
  match stop.bytes with
  | [] =>
    .error (.diag ((Diagnostic.error .cfgSyntax "unterminated `$\x7b...\x7d` environment reference"
      (lx.spanFrom stop)).withHelp "add a closing `\x7d`"))
  | _ :: _ => do
    let s ← slice lx.text inner.pos stop.pos
    let stop ← bump stop
    return (⟨.env s, lx.spanFrom stop⟩, stop)

def lexAtom (lx : Lexer) : Except Failure (Token × Lexer) := do
  let stop ← bumps lx (atomLen Char.ofUInt8 lx.bytes)
  let raw ← slice lx.text lx.pos stop.pos
  return (⟨.atom raw, lx.spanFrom stop⟩, stop)

/-- `peek` is expected to see a byte here. -/
def nextToken (lx : Lexer) : Except Failure (Token × Lexer) :=
  match lx.peek with
  | none => .error .panic
  | some c =>
    match single c with
    | some kind => do
      let stop ← bump lx
      return (⟨kind, lx.spanFrom stop⟩, stop)
    | none =>
      if c = '~' ∧ lx.peek2 = some '>' then do
        let stop ← bumps lx 2
        return (⟨.arrow, lx.spanFrom stop⟩, stop)
      else if c = '"' then lexString lx
      else if c = '$' ∧ lx.peek2 = some '{' then lexEnv lx
      else lexAtom lx

def run : Nat → Lexer → Except Failure (List Token)
  | 0, _ => .error .outOfFuel
  | fuel + 1, lx => do
    let lx ← bumps lx (skipHorizontalLen Char.ofUInt8 lx.bytes)
    match lx.peek with
    | none => .ok [⟨.eof, lx.spanFrom lx⟩]
    | some c =>
      if isSeparator c then do
        let stop ← bumps lx (separatorRunLen Char.ofUInt8 false lx.bytes)
        let tokens ← run fuel stop
        return ⟨.sep, lx.spanFrom stop⟩ :: tokens
      else do
        let (token, lx) ← nextToken lx
        let tokens ← run fuel lx
        return token :: tokens

def lex (text : Str) : Except Failure (List Token) := run (text.bytes.length + 1) (Lexer.new text)

end Lexer.Checked

end Pulsate.Flow
