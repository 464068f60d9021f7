import Pulsate.Flow.Parser

/-!
# The grammar as a stack machine

A machine that reads one token after another. Its stack holds what is still to come, with the next part on top. It takes or
refuses every token before it sees the next one, so where it fails is where no continuation can help. `Lemmas/Faithful` shows
that the parser does what the machine does.
-/

namespace Pulsate.Flow

/-- A part of the text that is still to come. -/
inductive Frame
  | stmts (inBlock : Bool)
  /-- The body of a block, if there is one. -/
  | body
  | spaceArgs
  /-- `=` and a value, if there are any. -/
  | assign
  | value
  | items
  | moreItems
  | matcher
  | pattern
  /-- The predicates of a route, if there are any. -/
  | bracket
  | preds
  | morePreds
  | steps
  | step
  /-- The arguments of a step, if there are any. -/
  | parens
  | stepArgs
  | moreArgs
  deriving DecidableEq, Repr

/-- What to do with a token: read it and expect other parts in place of the frame, drop the frame, or refuse the token. -/
inductive Action
  | shift (frames : List Frame)
  | pop
  | fail (code : Code) (message : Str)
  deriving DecidableEq, Repr

namespace Frame

/-- A list that goes on behind `next` or ends at `close`. -/
def more (self next : Frame) (close : TokenKind) (message : Str) (kind : TokenKind) : Action :=
  if kind = .sep then .shift [self]
  else if kind = .comma then .shift [next]
  else if kind = close then .shift []
  else .fail .cfgSyntax message

/-- A value, with what comes behind it. -/
def valueThen (frames : List Frame) : TokenKind → Action
  | .str _ | .env _ | .atom _ => .shift frames
  | .lBracket => .shift (items :: frames)
  | _ => .fail .cfgTypeMismatch "expected a value"

/-- An argument, with what comes behind it. -/
def argThen (frames : List Frame) : TokenKind → Action
  | .atom _ => .shift (assign :: frames)
  | kind => valueThen frames kind

def action : Frame → TokenKind → Action
  | stmts inBlock, kind =>
    match kind with
    | .sep => .shift [stmts inBlock]
    | .eof =>
      if inBlock then .fail .cfgSyntax "unexpected end of input: missing closing `\x7d`" else .pop
    | .rBrace =>
      if inBlock then .shift [] else .fail .cfgSyntax "unexpected `\x7d` with no matching block"
    | .atom kw =>
      if kw = "route" then .shift [matcher, steps, stmts inBlock]
      else .shift [spaceArgs, body, stmts inBlock]
    | _ => .fail .cfgSyntax "expected a keyword to start a statement"
  | body, kind => if kind = .lBrace then .shift [stmts true] else .pop
  | spaceArgs, kind =>
    match kind with
    | .atom _ | .str _ | .env _ | .lBracket => argThen [spaceArgs] kind
    | _ => .pop
  | assign, kind => if kind = .equals then .shift [value] else .pop
  | value, kind => valueThen [] kind
  | items, kind =>
    if kind = .sep then .shift [items]
    else if kind = .rBracket then .shift []
    else valueThen [moreItems] kind
  | moreItems, kind => more moreItems items .rBracket "expected `]` to close array" kind
  | matcher, kind =>
    match kind with
    | .equals => .shift [pattern]
    | .atom a => if a = ['~'] then .shift [pattern] else .shift [bracket]
    | _ => .fail .cfgSyntax "expected a route pattern"
  | pattern, kind =>
    match kind with
    | .atom _ => .shift [bracket]
    | _ => .fail .cfgSyntax "expected a route pattern"
  | bracket, kind => if kind = .lBracket then .shift [preds] else .pop
  | preds, kind =>
    match kind with
    | .sep => .shift [preds]
    | .rBracket => .shift []
    | .atom _ => .shift [assign, morePreds]
    | _ => .fail .cfgSyntax "expected a predicate key like `method`"
  | morePreds, kind => more morePreds preds .rBracket "expected `]` to close predicates" kind
  | steps, kind =>
    if kind = .sep then .shift [steps]
    else if kind = .arrow then .shift [step, steps]
    else .pop
  | step, kind =>
    match kind with
    | .sep => .shift [step]
    | .atom _ => .shift [parens]
    | _ => .fail .cfgSyntax "expected a middleware or handler name"
  | parens, kind => if kind = .lParen then .shift [stepArgs] else .pop
  | stepArgs, kind =>
    if kind = .sep then .shift [stepArgs]
    else if kind = .rParen then .shift []
    else argThen [moreArgs] kind
  | moreArgs, kind => more moreArgs stepArgs .rParen "expected `)` to close arguments" kind

end Frame

namespace Machine

/-- Reads one token. -/
def step (t : Token) : List Frame → Except Failure (List Frame)
  | [] => .ok []
  | f :: stack =>
    match f.action t.kind with
    | .shift frames => .ok (frames ++ stack)
    | .pop => step t stack
    | .fail code message => .error (.diag (Diagnostic.error code message t.span))

/-- Reads tokens until nothing is to come. The tokens may not run out before. -/
def run : List Frame → List Token → Except Failure Unit
  | [], _ => .ok ()
  | _ :: _, [] => .error .panic
  | f :: stack, t :: tokens => do
    let stack ← step t (f :: stack)
    run stack tokens

end Machine

/-- The end of input comes last and only there. -/
def EndsOnce (tokens : List Token) : Prop :=
  ∃ init e, tokens = init ++ [e] ∧ e.kind = .eof ∧ ∀ t ∈ init, t.kind ≠ .eof

/-! ## Completions -/

namespace Frame

/-- Nothing but an atom, or a line break before one, can come next. -/
def isEager : Frame → Bool
  | value | matcher | pattern | step => true
  | _ => false

/-- The tokens that end a part, where it may end. -/
def close : Frame → List TokenKind
  | stmts true => [.rBrace]
  | stmts false => [.eof]
  | items | moreItems | preds | morePreds => [.rBracket]
  | stepArgs | moreArgs => [.rParen]
  | _ => []

end Frame

namespace Machine

/-- Tokens of the kinds, wherever they are. -/
def tokensOf (kinds : List TokenKind) : List Token := kinds.map (fun kind => ⟨kind, ⟨0, 0, 1, 1⟩⟩)

/-- A text that completes what is to come. -/
def completion (stack : List Frame) : List Token :=
  tokensOf ((if stack.head?.any Frame.isEager then [.atom ['x']] else []) ++ stack.flatMap Frame.close)

/-- A stack that the machine can reach: the statements of the text are at its bottom, and only its top can be a part that has
not begun. -/
structure Stacked (stack : List Frame) : Prop where
  bottom : ∃ frames, stack = frames ++ [.stmts false] ∧ .stmts false ∉ frames
  tail : ∀ f ∈ stack.tail, f.isEager = false

end Machine

end Pulsate.Flow
