import Pulsate.Flow.Syntax

/-!
# Typing bare atoms (`pulsate-flow::value`, `pulsate-util::parse`)
-/

namespace Pulsate.Flow

/-! ## Numbers with units -/

def splitNumberUnit (s : Str) : Option (Nat × Str) :=
  let s := s.trim
  let num := s.takeWhile Char.isDigit
  let unit := s.dropWhile Char.isDigit
  -- a text of digits only has no unit, one without leading digits no number
  if unit.isEmpty || num.isEmpty then none
  else (Str.parseUnsigned 64 num).map (fun value => (value, Str.trim unit))

structure ParseError where
  input : Str
  reason : Str
  deriving DecidableEq, Repr

def saturatingMul (a b : Nat) : Nat := min (a * b) (2 ^ 64 - 1)

def parseDuration (s : Str) : Except ParseError Duration :=
  let s := s.trim
  if s.isEmpty then .error ⟨s, "empty duration"⟩
  else
    match splitNumberUnit s with
    | none => .error ⟨s, "expected <number><unit>"⟩
    | some (value, unit) =>
      if unit = "ms" then .ok ⟨value / 1000, value % 1000 * 1000000⟩
      else if unit = "s" then .ok ⟨value, 0⟩
      else if unit = "m" then .ok ⟨saturatingMul value 60, 0⟩
      else if unit = "h" then .ok ⟨saturatingMul value 3600, 0⟩
      else if unit = "d" then .ok ⟨saturatingMul value 86400, 0⟩
      else .error ⟨s, "unknown time unit (use ms, s, m, h, d)"⟩

/-- The multiplier of a size unit, already in upper case. -/
def sizeUnit (unit : Str) : Option Nat :=
  if unit = "B" then some 1
  else if unit = "KB" then some 1000
  else if unit = "MB" then some 1000000
  else if unit = "GB" then some 1000000000
  else if unit = "TB" then some 1000000000000
  else none

def parseSize (s : Str) : Except ParseError Nat :=
  let s := s.trim
  if s.isEmpty then .error ⟨s, "empty size"⟩
  else
    match s.parseUnsigned 64 with
    | some bytes => .ok bytes
    | none =>
      match splitNumberUnit s with
      | none => .error ⟨s, "expected <number><unit>"⟩
      | some (value, unit) =>
        match sizeUnit unit.toAsciiUppercase with
        | none => .error ⟨s, "unknown size unit (use B, KB, MB, GB, TB)"⟩
        | some mult =>
          if value * mult < 2 ^ 64 then .ok (value * mult)
          else .error ⟨s, "size overflows u64"⟩

/-! ## Atoms -/

def hasNumericPrefix (s : Str) : Bool := s.head?.any Char.isDigit

/-- `f64::from_str` on a text of digits and dots: one dot, and a digit on one side of it. -/
def tryFloat (s : Str) : Option Str :=
  if s.contains '.' && s.all (fun c => c.isDigit || c == '.') &&
      (s.count '.' == 1 && s.any Char.isDigit) then some s
  else none

def tryRate (s : Str) : Option Value := do
  let (num, unit) ← s.splitOnce "/"
  let count ← num.parseUnsigned 64
  let per ←
    if unit = "s" ∨ unit = "sec" then some RateWindow.second
    else if unit = "min" ∨ unit = "m" then some .minute
    else if unit = "h" ∨ unit = "hr" then some .hour
    else none
  return .rate count per

def typeAtom (raw : Str) : Value :=
  match raw.stripPrefix "@" with
  | some name => .ref name
  | none =>
  match raw.stripPrefix "secret://" with
  | some name => .secret name
  | none =>
  if raw = "true" ∨ raw = "on" then .bool true
  else if raw = "false" ∨ raw = "off" then .bool false
  else
  match tryRate raw with
  | some rate => rate
  | none =>
  match raw.parseI64 with
  | some i => .int i
  | none =>
  match tryFloat raw with
  | some f => .float f
  | none =>
  if hasNumericPrefix raw then
    match parseDuration raw with
    | .ok d => .duration d
    | .error _ =>
    match parseSize raw with
    | .ok n => .size n
    | .error _ => .str raw
  else .str raw

def typeEnv (inner : Str) : Value :=
  match inner.splitOnce ":-" with
  | some (var, default) => .env var.trim (some default)
  | none => .env inner.trim none

/-! ## Values as text -/

def natText (n : Nat) : Str := Nat.toDigits 10 n

def intText (i : Int) : Str := if i < 0 then '-' :: natText i.natAbs else natText i.natAbs

/-- The `Debug` form of a string, without the escapes of unprintable characters other than controls. -/
def debugStr (s : Str) : Str :=
  let escape (c : Char) : Str :=
    if c = '"' then ['\\', '"']
    else if c = '\\' then ['\\', '\\']
    else if c = '\n' then ['\\', 'n']
    else if c = '\r' then ['\\', 'r']
    else if c = '\t' then ['\\', 't']
    else if c = '\x00' then ['\\', '0']
    else if Str.isControl c then "\\u\x7b" ++ Nat.toDigits 16 c.toNat ++ ['}']
    else [c]
  '"' :: s.flatMap escape ++ ['"']

/-- The `Debug` form of a float, from the digits it was written with; never one with an exponent. -/
def debugFloat (digits : Str) : Str :=
  let whole := (digits.takeWhile (· ≠ '.')).dropWhile (· = '0')
  let frac := ((digits.dropWhile (· ≠ '.')).drop 1).rdropWhile (· = '0')
  (if whole.isEmpty then ['0'] else whole) ++ '.' :: (if frac.isEmpty then ['0'] else frac)

/-- A fraction with the given number of places, without its trailing zeros. -/
def fractionText (places n : Nat) : Str :=
  if n = 0 then []
  else '.' :: (List.replicate (places - (natText n).length) '0' ++ natText n).rdropWhile (· = '0')

/-- The `Debug` form of a duration of whole milliseconds. -/
def debugDuration (d : Duration) : Str :=
  if 0 < d.secs then natText d.secs ++ fractionText 9 d.nanos ++ "s"
  else if 1000000 ≤ d.nanos then
    natText (d.nanos / 1000000) ++ fractionText 6 (d.nanos % 1000000) ++ "ms"
  else "0ns"

def debugSpan (s : Span) : Str :=
  "Span \x7b offset: " ++ natText s.offset ++ ", len: " ++ natText s.len ++
    ", line: " ++ natText s.line.toNat ++ ", col: " ++ natText s.col.toNat ++ " \x7d"

def debugWindow : RateWindow → Str
  | .second => "Second"
  | .minute => "Minute"
  | .hour => "Hour"

/-- The derived `Debug` form of a value. -/
def debugValue : Value → Str
  | .str s => "Str(" ++ debugStr s ++ [')']
  | .int i => "Int(" ++ intText i ++ [')']
  | .float f => "Float(" ++ debugFloat f ++ [')']
  | .bool b => "Bool(".toList ++ (if b then "true".toList else "false".toList) ++ [')']
  | .duration d => "Duration(" ++ debugDuration d ++ [')']
  | .size n => "Size(" ++ natText n ++ [')']
  | .rate count per =>
    "Rate \x7b count: " ++ natText count ++ ", per: " ++ debugWindow per ++ " \x7d"
  | .array items => "Array([" ++ debugItems items ++ "])"
  | .ref name => "Ref(" ++ debugStr name ++ [')']
  | .secret name => "Secret(" ++ debugStr name ++ [')']
  | .env var default =>
    "Env \x7b var: " ++ debugStr var ++ ", default: " ++
      (match default with
        | none => "None"
        | some d => "Some(" ++ debugStr d ++ [')']) ++ " \x7d"
where
  debugItems : List (Spanned Value) → Str
    | [] => []
    | [x] => debugItem x
    | x :: y :: rest => debugItem x ++ ", " ++ debugItems (y :: rest)
  debugItem : Spanned Value → Str
    | ⟨node, span⟩ =>
      "Spanned \x7b node: " ++ debugValue node ++ ", span: " ++ debugSpan span ++
        " \x7d"

/-- The text a predicate's value is compared as. -/
def valueToLexeme : Value → Str
  | .str s => s
  | .bool b => if b then "true" else "false"
  | .int i => intText i
  | v => debugValue v

end Pulsate.Flow
