import Pulsate.Flow.Value
import Pulsate.Waf.Audit

/-!
# JSON text (`pulsate-control::json`) and the error codes in it (`pulsate-core::error`)
-/

namespace Pulsate.Control

open Pulsate.Flow (natText)

/-! ## Writing -/

def escChar (c : Char) : Str :=
  if c = '"' then ['\\', '"']
  else if c = '\\' then ['\\', '\\']
  else if c = '\n' then ['\\', 'n']
  else if c = '\r' then ['\\', 'r']
  else if c = '\t' then ['\\', 't']
  else if c.toNat < 0x20 then
    ['\\', 'u', '0', '0', Waf.hexDigit (c.toNat / 16), Waf.hexDigit (c.toNat % 16)]
  else [c]

def esc (s : Str) : Str := s.flatMap escChar

def field (key value : Str) : Str := '"' :: esc key ++ ['"', ':', '"'] ++ esc value ++ ['"']

def numField (key : Str) (value : Nat) : Str := '"' :: esc key ++ ['"', ':'] ++ natText value

def commaJoined (items : List Str) : Str := [','].intercalate items

def object (fields : List Str) : Str := '{' :: commaJoined fields ++ ['}']

/-! ## Error codes -/

/-- `{:04}`. -/
def fourDigits (n : Nat) : Str := List.replicate (4 - (natText n).length) '0' ++ natText n

def codeText (area : Str) (number : Nat) : Str := "PLS-" ++ area ++ '-' :: fourDigits number

/-- The code of a diagnostic as it is printed. -/
def configCode : Flow.Code → Str
  | .cfgSyntax => codeText "CFG" 1
  | .cfgTypeMismatch => codeText "CFG" 3
  | .cfgMissingField => codeText "CFG" 5
  | .cfgUnknownRef => codeText "CFG" 7
  | .cfgHostCollision => codeText "CFG" 10
  | .cfgMultiHandler => codeText "CFG" 12
  | .cfgDuplicate => codeText "CFG" 20
  | .cfgInvalidCors => codeText "CFG" 21

/-- The codes the admin surfaces answer with. -/
inductive Code
  | prxNoRoute
  | admUnauthorized
  | admForbidden
  deriving DecidableEq, Repr

def Code.text : Code → Str
  | .prxNoRoute => codeText "PRX" 1
  | .admUnauthorized => codeText "ADM" 1
  | .admForbidden => codeText "ADM" 2

def Code.title : Code → Str
  | .prxNoRoute => "No route matched"
  | .admUnauthorized => "Unauthorized"
  | .admForbidden => "Forbidden (scope)"

def Code.docsUrl (c : Code) : Str := "https://squaretick.dev/pulsate/errors/" ++ c.text

end Pulsate.Control
