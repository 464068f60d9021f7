import Pulsate.Cache.Layer

/-!
# What header lines say

The items of a line are read here as the HTTP grammar has them, on every line and whatever else the line holds. Nothing here
goes through the cache's own reading of headers.
-/

namespace Pulsate.Cache

open Http (HeaderMap HeaderName HeaderValue)

/-- A blank between the items of a line. -/
def isOws (c : Char) : Bool := c = ' ' || c = '\t'

def trimOws (s : Str) : Str := (s.dropWhile isOws).rdropWhile isOws

/-- The items of a line, which commas separate; empty ones do not count. -/
def items (line : HeaderValue) : List Str := ((line.text.splitOn ',').map trimOws).filter (· ≠ [])

/-- The name of an item that may have a value. -/
def itemName (item : Str) : Str := trimOws (item.takeWhile (· ≠ '='))

/-- A directive of the name is among the items. -/
def HasDirective (name : Str) (line : HeaderValue) : Prop := ∃ item ∈ items line, (itemName item).eqIgnoreAsciiCase name

/-- The line names something on which the keys do not depend. -/
def VariesOn (config : CacheConfig) (line : HeaderValue) : Prop :=
  ∃ field ∈ items line, field = ['*'] ∨ ∀ name ∈ config.vary, name.eqIgnoreAsciiCase field = false

/-- The directive is on one of the `Cache-Control` lines. -/
def Carries (name : Str) (headers : HeaderMap) : Prop := ∃ line ∈ headers.getAll .cacheControl, HasDirective name line

/-- The directive is on the first `Cache-Control` line, and that line is a string. -/
def Shows (name : Str) (headers : HeaderMap) : Prop :=
  ∃ line, headers.get .cacheControl = some line ∧ line.isVisible ∧ HasDirective name line

/-- A shared cache must not store the response. -/
def Forbidden (config : CacheConfig) (status : Nat) (headers : HeaderMap) : Prop :=
  Carries "no-store" headers ∨ Carries "private" headers ∨
    (∃ line ∈ headers.getAll .vary, VariesOn config line) ∨ headers.getAll .setCookie ≠ [] ∨ status ≠ 200

/-- That is seen from the first line of each header alone, and from it only if it is a string. -/
def SeenForbidden (config : CacheConfig) (status : Nat) (headers : HeaderMap) : Prop :=
  Shows "no-store" headers ∨ Shows "private" headers ∨
    (∃ line, headers.get .vary = some line ∧ line.isVisible ∧ VariesOn config line) ∨
    headers.getAll .setCookie ≠ [] ∨ status ≠ 200

/-- The response lists the tag, on whichever line. -/
def Lists (tag : Str) (headers : HeaderMap) : Prop :=
  ∃ line ∈ headers.getAll cacheTag ++ headers.getAll xCacheTag, tag ∈ items line

/-- The tag is on the line that tags are read from, the first one of the one name or else of the other, and that line is a
string. -/
def ShowsTag (tag : Str) (headers : HeaderMap) : Prop :=
  ∃ line, (headers.get cacheTag).or (headers.get xCacheTag) = some line ∧ line.isVisible ∧ tag ∈ items line

/-- The call brings a response with such headers. -/
def Call.Brings (P : HeaderMap → Prop) : Call → Prop
  | .maybeStore _ _ _ _ headers _ => P headers
  | _ => False

end Pulsate.Cache
