import Pulsate.Flow.Syntax

/-!
# The lexer (`pulsate-flow::lexer`)

The lexer walks over the bytes of the text and cuts its tokens out of the text by byte offsets. Every
byte it decides on is an ASCII character, so bytes are compared as characters (`b as char`).
-/

namespace Pulsate.Flow

/-! ## How far each loop runs

The loops below only look at the items in front of them and count how many they pass. They are written
for any kind of item read as a character, since the lexer runs them over bytes. -/

section Loops

variable {α : Type} (char : α → Char)

def isHorizontal (c : Char) : Bool := c == ' ' || c == '\t' || c == '\r'

def isSeparator (c : Char) : Bool := c == '\n' || c == ';'

/-- The characters an atom ends at, the `~` of a `~>` apart. -/
def isAtomEnd (c : Char) : Bool :=
  isHorizontal c || isSeparator c || c == '#' || c == '{' || c == '}' || c == '(' || c == ')' ||
    c == '[' || c == ']' || c == ',' || c == '=' || c == '"'

/-- A line comment runs up to the newline. -/
def commentLen (items : List α) : Nat := (items.takeWhile (fun b => char b ≠ '\n')).length

def skipHorizontalLen : List α → Nat
  | [] => 0
  | b :: rest =>
    if isHorizontal (char b) then skipHorizontalLen rest + 1
    -- what follows a comment is a newline or the end, so the loop stops there
    else if char b = '#' then commentLen char (b :: rest)
    else 0

/-- `inComment` tells whether the loop is inside its inner loop over a comment. -/
def separatorRunLen (inComment : Bool) : List α → Nat
  | [] => 0
  | b :: rest =>
    if inComment then separatorRunLen (char b ≠ '\n') rest + 1
    else if isSeparator (char b) || isHorizontal (char b) then separatorRunLen false rest + 1
    else if char b = '#' then separatorRunLen true rest + 1
    else 0

def atomLen : List α → Nat
  | [] => 0
  | b :: rest =>
    if isAtomEnd (char b) || (char b == '~' && (rest.head?.map char) == some '>') then 0
    else atomLen rest + 1

end Loops

/-! ## The lexer's state -/

structure Lexer where
  text : Str
  /-- The bytes from `pos` on. -/
  bytes : List UInt8
  pos : Nat
  line : UInt32
  col : UInt32
  deriving DecidableEq, Repr

namespace Lexer

def new (text : Str) : Lexer := ⟨text, text.bytes, 0, 1, 1⟩

def peek (lx : Lexer) : Option Char := lx.bytes.head?.map Char.ofUInt8

def peek2 (lx : Lexer) : Option Char := (lx.bytes.drop 1).head?.map Char.ofUInt8

/-- Called only where `peek` has seen a byte. -/
def bump (lx : Lexer) : Lexer :=
  match lx.bytes with
  | [] => lx
  | b :: rest =>
    if Char.ofUInt8 b = '\n' then
      { lx with bytes := rest, pos := lx.pos + 1, line := lx.line + 1, col := 1 }
    else { lx with bytes := rest, pos := lx.pos + 1, col := lx.col + 1 }

def bumps (lx : Lexer) : Nat → Lexer
  | 0 => lx
  | n + 1 => lx.bump.bumps n

/-- The span from the state `start` to this one. -/
def spanFrom (start lx : Lexer) : Span := ⟨start.pos, lx.pos - start.pos, start.line, start.col⟩

def skipHorizontal (lx : Lexer) : Lexer := lx.bumps (skipHorizontalLen Char.ofUInt8 lx.bytes)

def consumeSeparatorRun (lx : Lexer) : Lexer :=
  lx.bumps (separatorRunLen Char.ofUInt8 false lx.bytes)

def isContinuation (b : UInt8) : Bool := b &&& 0xc0 == 0x80

/-- What a character after a backslash stands for. -/
def unescape (c : Char) : Char :=
  if c = 'n' then '\n' else if c = 't' then '\t' else if c = 'r' then '\r' else c

/-- The loop of `lex_string`, entered after the opening quote of the token that starts at `start`. -/
def stringBody (start : Lexer) : Nat → Lexer → Str → Except Failure (Token × Lexer)
  | 0, _, _ => .error .outOfFuel
  | fuel + 1, lx, value =>
    match lx.bytes with
    | [] =>
      .error (.diag ((Diagnostic.error .cfgSyntax "unterminated string literal"
        (start.spanFrom lx)).withHelp "add a closing `\"`"))
    | b :: rest =>
      if Char.ofUInt8 b = '"' then
        .ok (⟨.str value, start.spanFrom lx.bump⟩, lx.bump)
      else if Char.ofUInt8 b = '\\' then
        match lx.bump.peek with
        | some c => stringBody start fuel lx.bump.bump (value ++ [unescape c])
        | none => stringBody start fuel lx.bump value
      else
        let next := lx.bumps (1 + (rest.takeWhile isContinuation).length)
        match lx.text.slice lx.pos next.pos with
        | some chars => stringBody start fuel next (value ++ chars)
        | none => .error .panic

def lexString (lx : Lexer) : Except Failure (Token × Lexer) :=
  stringBody lx (lx.bytes.length + 1) lx.bump []

def lexEnv (lx : Lexer) : Except Failure (Token × Lexer) :=
  let inner := lx.bump.bump
  let stop := inner.bumps (inner.bytes.takeWhile (fun b => Char.ofUInt8 b ≠ '}')).length
  match stop.bytes with
  | [] =>
    .error (.diag ((Diagnostic.error .cfgSyntax "unterminated `$\x7b...\x7d` environment reference"
      (lx.spanFrom stop)).withHelp "add a closing `\x7d`"))
  | _ :: _ =>
    match lx.text.slice inner.pos stop.pos with
    | some s => .ok (⟨.env s, lx.spanFrom stop.bump⟩, stop.bump)
    | none => .error .panic

def lexAtom (lx : Lexer) : Except Failure (Token × Lexer) :=
  let stop := lx.bumps (atomLen Char.ofUInt8 lx.bytes)
  match lx.text.slice lx.pos stop.pos with
  | some raw => .ok (⟨.atom raw, lx.spanFrom stop⟩, stop)
  | none => .error .panic

/-- The tokens of one character. -/
def single (c : Char) : Option TokenKind :=
  match c with
  | '{' => some .lBrace
  | '}' => some .rBrace
  | '(' => some .lParen
  | ')' => some .rParen
  | '[' => some .lBracket
  | ']' => some .rBracket
  | ',' => some .comma
  | '=' => some .equals
  | _ => none

/-- Reads the token that starts with the byte `c`, which `peek` has seen. -/
def nextToken (lx : Lexer) (c : Char) : Except Failure (Token × Lexer) :=
  match single c with
  | some kind => .ok (⟨kind, lx.spanFrom lx.bump⟩, lx.bump)
  | none =>
    if c = '~' ∧ lx.peek2 = some '>' then
      .ok (⟨.arrow, lx.spanFrom lx.bump.bump⟩, lx.bump.bump)
    else if c = '"' then lexString lx
    else if c = '$' ∧ lx.peek2 = some '{' then lexEnv lx
    else lexAtom lx

def run : Nat → Lexer → Except Failure (List Token)
  | 0, _ => .error .outOfFuel
  | fuel + 1, lx =>
    let lx := lx.skipHorizontal
    match lx.peek with
    | none => .ok [⟨.eof, lx.spanFrom lx⟩]
    | some c =>
      if isSeparator c then do
        let tokens ← run fuel lx.consumeSeparatorRun
        return ⟨.sep, lx.spanFrom lx.consumeSeparatorRun⟩ :: tokens
      else do
        let (token, lx) ← nextToken lx c
        let tokens ← run fuel lx
        return token :: tokens

end Lexer

/-- Lexes a whole text. Every token takes at least one byte, so the text's length is enough fuel. -/
def lex (text : Str) : Except Failure (List Token) :=
  Lexer.run (text.bytes.length + 1) (Lexer.new text)

end Pulsate.Flow
