import Pulsate.Flow.Lexer
import Pulsate.Flow.Value

/-!
# The parser (`pulsate-flow::parser`)

Recursive descent over the token list. The functions that recurse take a step bound; `Lemmas/Faithful`
shows that the number of tokens left is always enough.
-/

namespace Pulsate.Flow

/-- The tokens still to be read and the span of the one read last. -/
structure Parser where
  prevSpan : Span
  tokens : List Token
  deriving DecidableEq, Repr

/-- The span from `start` to a byte offset. -/
def spanTo (start : Span) (stop : Nat) : Span :=
  ⟨start.offset, stop - start.offset, start.line, start.col⟩

namespace Parser

/-- A token list of the lexer ends in `eof`, so there is always a token to look at. -/
def peek (p : Parser) : Token := p.tokens.headD ⟨.eof, p.prevSpan⟩

def peekKind (p : Parser) : TokenKind := p.peek.kind

def nextKind (p : Parser) : TokenKind :=
  match p.tokens with
  | _ :: t :: _ => t.kind
  | _ => p.peekKind

/-- The parser after the current token; the last token of the list is never passed. -/
def bump (p : Parser) : Parser :=
  match p.tokens with
  | t :: t' :: rest => ⟨t.span, t' :: rest⟩
  | _ => p

/-- The spans of skipped separators are not looked at again. -/
def skipSeps (p : Parser) : Parser := { p with tokens := p.tokens.dropWhile (·.kind = .sep) }

def err (p : Parser) (code : Code) (message : Str) : Failure :=
  .diag (Diagnostic.error code message p.peek.span)

/-! ## Values and arguments -/

mutual

def parseValueFuel : Nat → Parser → Except Failure (Spanned Value × Parser)
  | 0, _ => .error .outOfFuel
  | fuel + 1, p =>
    match p.peekKind with
    | .str s => .ok (⟨.str s, p.peek.span⟩, p.bump)
    | .env inner => .ok (⟨typeEnv inner, p.peek.span⟩, p.bump)
    | .atom raw => .ok (⟨typeAtom raw, p.peek.span⟩, p.bump)
    | .lBracket => do
      let (items, q) ← parseItemsFuel fuel p.bump
      if q.peekKind = .rBracket then
        return (⟨.array items, spanTo p.peek.span q.peek.span.stop⟩, q.bump)
      else throw (q.err .cfgSyntax "expected `]` to close array")
    | _ => .error (p.err .cfgTypeMismatch "expected a value")

/-- The loop of `parse_array`. -/
def parseItemsFuel : Nat → Parser → Except Failure (List (Spanned Value) × Parser)
  | 0, _ => .error .outOfFuel
  | fuel + 1, p =>
    if p.skipSeps.peekKind = .rBracket then .ok ([], p.skipSeps)
    else do
      let (item, q) ← parseValueFuel fuel p.skipSeps
      if q.skipSeps.peekKind = .comma then
        let (items, r) ← parseItemsFuel fuel q.skipSeps.bump
        return (item :: items, r)
      else return ([item], q.skipSeps)

end

def parseValue (p : Parser) : Except Failure (Spanned Value × Parser) := parseValueFuel (2 * p.tokens.length + 1) p

def parseArg (p : Parser) : Except Failure (Arg × Parser) :=
  match p.peekKind, p.nextKind with
  | .atom name, .equals => do
    let (value, q) ← parseValue p.bump.bump
    return (.named ⟨name, p.peek.span⟩ value, q)
  | _, _ => do
    let (value, q) ← parseValue p
    return (.positional value, q)

/-- Whether a space-separated argument starts here. -/
def startsArg (p : Parser) : Bool :=
  match p.peekKind with
  | .atom _ | .str _ | .env _ | .lBracket => true
  | _ => false

def parseSpaceArgsFuel : Nat → Parser → Except Failure (List Arg × Parser)
  | 0, _ => .error .outOfFuel
  | fuel + 1, p =>
    if p.startsArg then do
      let (arg, q) ← parseArg p
      let (args, r) ← parseSpaceArgsFuel fuel q
      return (arg :: args, r)
    else .ok ([], p)

def parseSpaceArgs (p : Parser) : Except Failure (List Arg × Parser) := parseSpaceArgsFuel (p.tokens.length + 1) p

/-! ## Routes -/

/-- A key, with a value after `=` or standing for itself. -/
def parsePredicate (key : Str) (p : Parser) : Except Failure (Predicate × Parser) :=
  if p.bump.peekKind = .equals then do
    let (v, q) ← parseValue p.bump.bump
    return (⟨key, valueToLexeme v.node, spanTo p.peek.span v.span.stop⟩, q)
  else .ok (⟨key, ['*'], spanTo p.peek.span p.peek.span.stop⟩, p.bump)

/-- The loop of `parse_predicates`. -/
def parsePredicateListFuel : Nat → Parser → Except Failure (List Predicate × Parser)
  | 0, _ => .error .outOfFuel
  | fuel + 1, p =>
    let p := p.skipSeps
    match p.peekKind with
    | .rBracket => .ok ([], p)
    | .atom key => do
      let (pred, q) ← parsePredicate key p
      if q.skipSeps.peekKind = .comma then
        let (preds, r) ← parsePredicateListFuel fuel q.skipSeps.bump
        return (pred :: preds, r)
      else return ([pred], q.skipSeps)
    | _ => .error (p.err .cfgSyntax "expected a predicate key like `method`")

/-- The predicates and the end offset of the closing bracket. -/
def parsePredicates (p : Parser) : Except Failure ((List Predicate × Nat) × Parser) := do
  let (preds, q) ← parsePredicateListFuel (p.tokens.length + 1) p.bump
  if q.peekKind = .rBracket then return ((preds, q.peek.span.stop), q.bump)
  else throw (q.err .cfgSyntax "expected `]` to close predicates")

/-- The sign of an exact or regular-expression match. -/
def parseMatchKind (p : Parser) : MatchKind × Parser :=
  match p.peekKind with
  | .equals => (.Exact, p.bump)
  | .atom a => if a = ['~'] then (.Regex, p.bump) else (.Prefix, p)
  | _ => (.Prefix, p)

def parseMatcher (p : Parser) : Except Failure (Matcher × Parser) :=
  let kind := p.parseMatchKind.1
  let q := p.parseMatchKind.2
  match q.peekKind with
  | .atom pat => do
    let pattern : Spanned Str := ⟨pat, q.peek.span⟩
    if q.bump.peekKind = .lBracket then
      let ((predicates, stop), r) ← parsePredicates q.bump
      return (⟨kind, pattern, predicates, spanTo p.peek.span stop⟩, r)
    else return (⟨kind, pattern, [], spanTo p.peek.span pattern.span.stop⟩, q.bump)
  | _ => .error (q.err .cfgSyntax "expected a route pattern")

/-- The argument loop of `parse_step`. -/
def parseStepArgsFuel : Nat → Parser → Except Failure (List Arg × Parser)
  | 0, _ => .error .outOfFuel
  | fuel + 1, p =>
    if p.skipSeps.peekKind = .rParen then .ok ([], p.skipSeps)
    else do
      let (arg, q) ← parseArg p.skipSeps
      if q.skipSeps.peekKind = .comma then
        let (args, r) ← parseStepArgsFuel fuel q.skipSeps.bump
        return (arg :: args, r)
      else return ([arg], q.skipSeps)

def parseStep (p : Parser) : Except Failure (Step × Parser) :=
  match p.peekKind with
  | .atom name => do
    let q := p.bump
    if q.peekKind = .lParen then
      let (args, r) ← parseStepArgsFuel (q.tokens.length + 1) q.bump
      if r.peekKind = .rParen then
        return (⟨⟨name, p.peek.span⟩, args, true, spanTo p.peek.span r.peek.span.stop⟩, r.bump)
      else throw (r.err .cfgSyntax "expected `)` to close arguments")
    else return (⟨⟨name, p.peek.span⟩, [], false, spanTo p.peek.span p.peek.span.stop⟩, q)
  | _ => .error (p.err .cfgSyntax "expected a middleware or handler name")

/-- The loop of `parse_route`. -/
def parseStepsFuel : Nat → Parser → Except Failure (List Step × Parser)
  | 0, _ => .error .outOfFuel
  | fuel + 1, p =>
    if p.skipSeps.peekKind = .arrow then do
      let (step, q) ← parseStep p.skipSeps.bump.skipSeps
      let (steps, r) ← parseStepsFuel fuel q
      return (step :: steps, r)
    else .ok ([], p.skipSeps)

def parseRoute (p : Parser) : Except Failure (Route × Parser) := do
  let (matcher, q) ← parseMatcher p.bump
  let (steps, r) ← parseStepsFuel (q.tokens.length + 1) q
  let stop := (steps.getLast?.map (·.span.stop)).getD matcher.span.stop
  return (⟨matcher, steps, spanTo p.peek.span stop⟩, r)

/-! ## Statements -/

mutual

def parseStmtsFuel : Nat → Bool → Parser → Except Failure (List Stmt × Parser)
  | 0, _, _ => .error .outOfFuel
  | fuel + 1, inBlock, p =>
    let p := p.skipSeps
    match p.peekKind with
    | .eof =>
      if inBlock then
        .error (p.err .cfgSyntax "unexpected end of input: missing closing `\x7d`")
      else .ok ([], p)
    | .rBrace =>
      if inBlock then .ok ([], p.bump)
      else .error (p.err .cfgSyntax "unexpected `\x7d` with no matching block")
    | _ => do
      let (stmt, q) ← parseStmtFuel fuel p
      let (stmts, r) ← parseStmtsFuel fuel inBlock q
      return (stmt :: stmts, r)

def parseStmtFuel : Nat → Parser → Except Failure (Stmt × Parser)
  | 0, _ => .error .outOfFuel
  | fuel + 1, p =>
    match p.peekKind with
    | .atom kw =>
      if kw = "route" then do
        let (r, q) ← parseRoute p
        return (.route r, q)
      else do
        let keyword : Spanned Str := ⟨kw, p.peek.span⟩
        let (args, q) ← parseSpaceArgs p.bump
        if q.peekKind = .lBrace then
          let (body, r) ← parseStmtsFuel fuel true q.bump
          return (.block keyword args body (spanTo keyword.span r.prevSpan.stop), r)
        else
          let stop := (args.getLast?.map (·.span.stop)).getD keyword.span.stop
          return (.directive ⟨keyword, args, spanTo keyword.span stop⟩, q)
    | _ => .error (p.err .cfgSyntax "expected a keyword to start a statement")

end

end Parser

/-- Parses a token list of the lexer. -/
def parseTokens (tokens : List Token) : Except Failure Ast := do
  let p : Parser := ⟨(tokens.headD ⟨.eof, ⟨0, 0, 1, 1⟩⟩).span, tokens⟩
  let (stmts, _) ← Parser.parseStmtsFuel (2 * tokens.length + 2) false p
  return ⟨stmts⟩

/-- Lexes and parses a text (`pulsate_flow::parse`). -/
def parse (text : Str) : Except Failure Ast := do
  let tokens ← lex text
  parseTokens tokens

end Pulsate.Flow
