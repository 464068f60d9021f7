import Pulsate.Std.Str

/-!
# Header maps (`http`) and responses (`pulsate-core::message`)

A header map is its lines in the order of iteration, in which the lines of one name stand together.
-/

namespace Pulsate.Http

/-! ## Names and values -/

/-- A character of a header name, in the lower case that names are kept in. -/
def isNameChar (c : Char) : Bool :=
  c.isLower || c.isDigit || "!#$%&'*+-.^_`|~".toList.contains c

def isName (s : Str) : Bool := !s.isEmpty && s.length ≤ 65535 && s.all isNameChar

structure HeaderName where
  text : Str
  valid : isName text
  deriving DecidableEq, Repr

/-- `HeaderName::try_from`, and how a map is searched by a text. -/
def HeaderName.parse (s : Str) : Option HeaderName :=
  if h : isName (s.map Char.toLower) then some ⟨s.map Char.toLower, h⟩ else none

def isValueByte (b : UInt8) : Bool := b = 9 || (32 ≤ b && b ≠ 127)

def isVisibleByte (b : UInt8) : Bool := b = 9 || (32 ≤ b && b < 127)

/-- The characters of the strings that values can be. -/
def isVisibleChar (c : Char) : Bool := c = '\t' || (32 ≤ c.toNat && c.toNat < 127)

structure HeaderValue where
  bytes : List UInt8
  valid : bytes.all isValueByte
  deriving DecidableEq, Repr

namespace HeaderValue

/-- The bytes as the characters of the same numbers. -/
def text (v : HeaderValue) : Str := v.bytes.map Char.ofUInt8

def isVisible (v : HeaderValue) : Bool := v.bytes.all isVisibleByte

/-- `HeaderValue::to_str`. -/
def toStr (v : HeaderValue) : Option Str := if v.isVisible then some v.text else none

/-- `HeaderValue::from_str`. -/
def fromStr (s : Str) : Option HeaderValue :=
  if h : s.bytes.all isValueByte then some ⟨s.bytes, h⟩ else none

end HeaderValue

/-! ## Maps -/

abbrev HeaderMap := List (HeaderName × HeaderValue)

namespace HeaderMap

/-- `HeaderMap::get`: the first line of the name. -/
def get (headers : HeaderMap) (name : HeaderName) : Option HeaderValue := headers.lookup name

/-- `HeaderMap::get_all`. -/
def getAll (headers : HeaderMap) (name : HeaderName) : List HeaderValue :=
  headers.filterMap (fun line => if line.1 = name then some line.2 else none)

def containsKey (headers : HeaderMap) (name : HeaderName) : Bool := (headers.get name).isSome

/-- `get`, and the value as a string if it is one. -/
def getStr (headers : HeaderMap) (name : HeaderName) : Option Str := (headers.get name).bind HeaderValue.toStr

/-- `HeaderMap::insert`: the new line stands for all lines of the name, in the place of the first of them. -/
def insert (headers : HeaderMap) (name : HeaderName) (value : HeaderValue) : HeaderMap :=
  match headers with
  | [] => [(name, value)]
  | line :: headers =>
    if line.1 = name then (name, value) :: List.filter (·.1 ≠ name) headers
    else line :: insert headers name value

/-- `HeaderMap::remove`: the lines of the name that is last move to where the removed ones were. -/
def remove (headers : HeaderMap) (name : HeaderName) : HeaderMap :=
  let rest := (headers.dropWhile (·.1 ≠ name)).filter (·.1 ≠ name)
  headers.takeWhile (·.1 ≠ name) ++
    match rest.getLast? with
    | none => []
    | some last => rest.filter (·.1 = last.1) ++ rest.filter (·.1 ≠ last.1)

end HeaderMap

namespace HeaderName

def accessControlAllowCredentials : HeaderName := ⟨"access-control-allow-credentials".toList, by decide⟩

def accessControlAllowMethods : HeaderName := ⟨"access-control-allow-methods".toList, by decide⟩

def accessControlAllowOrigin : HeaderName := ⟨"access-control-allow-origin".toList, by decide⟩

def authorization : HeaderName := ⟨"authorization".toList, by decide⟩

def cacheControl : HeaderName := ⟨"cache-control".toList, by decide⟩

def contentType : HeaderName := ⟨"content-type".toList, by decide⟩

def host : HeaderName := ⟨"host".toList, by decide⟩

def location : HeaderName := ⟨"location".toList, by decide⟩

def origin : HeaderName := ⟨"origin".toList, by decide⟩

def setCookie : HeaderName := ⟨"set-cookie".toList, by decide⟩

def vary : HeaderName := ⟨"vary".toList, by decide⟩

end HeaderName

/-! ## Responses -/

structure Response where
  status : Nat
  headers : HeaderMap
  body : List UInt8
  deriving DecidableEq, Repr

namespace Response

def new (status : Nat) : Response := ⟨status, [], []⟩

def withBody (resp : Response) (body : List UInt8) : Response := { resp with body }

/-- `headers_mut().insert`. -/
def insert (resp : Response) (name : HeaderName) (value : HeaderValue) : Response :=
  { resp with headers := resp.headers.insert name value }

/-- The header is set if the text can be a value. -/
def insertStr (resp : Response) (name : HeaderName) (value : Str) : Response :=
  match HeaderValue.fromStr value with
  | some v => resp.insert name v
  | none => resp

end Response

end Pulsate.Http
