import Pulsate.Cache.Layer

/-!
# Requests (`http`, `pulsate-http::serve`)

A request as the connection hands it over, with what its parts are made of.
-/

namespace Pulsate.Http

def isTokenChar (c : Char) : Bool := c.isAlphanum || "!#$%&'*+-.^_`|~".toList.contains c

/-- A character of a target or an authority. -/
def isTargetChar (c : Char) : Bool := 0x21 ≤ c.toNat && c ≠ '#'

structure Request where
  method : Str
  path : Str
  query : Option Str
  authority : Option Str
  headers : HeaderMap
  methodValid : method.all isTokenChar
  pathValid : path.all (fun c => isTargetChar c && c ≠ '?')
  queryValid : (query.getD []).all isTargetChar
  authorityValid : (authority.getD []).all isTargetChar
  deriving DecidableEq

namespace Request

/-- `request_host`: the `Host` header or else the authority. -/
def host (req : Request) : Str := ((req.headers.getStr .host).or req.authority).getD []

/-- The path and the query as they came. -/
def target (req : Request) : Str :=
  match req.query with
  | some q => req.path ++ '?' :: q
  | none => req.path

def origin (req : Request) : Option Str := req.headers.getStr .origin

/-- The key of a request in a cache. -/
def key (config : Cache.CacheConfig) (req : Request) : Str := config.key req.method req.host req.target req.headers

/-- Whether a cache may be used for a request. -/
def allowsCache (config : Cache.CacheConfig) (req : Request) : Bool := config.requestAllowsCache req.method req.headers

end Request

/-! ## Variants of a resource

What two requests must have in common to be given the same response, and what a key tells of them. -/

namespace Request

/-- All lines of a header. A text that is no name has none. -/
def lines (req : Request) (name : Str) : List HeaderValue := ((HeaderName.parse name).map req.headers.getAll).getD []

end Request

/-- The bytes of the first line if that is a string, and none otherwise. -/
def shown (lines : List HeaderValue) : List UInt8 := ((lines.head?.filter HeaderValue.isVisible).map (·.bytes)).getD []

/-- The requests ask the same of the same resource. -/
structure SameTarget (r₁ r₂ : Request) : Prop where
  method : r₁.method = r₂.method
  host : r₁.host = r₂.host
  target : r₁.target = r₂.target

/-- They also have the same lines of every header on which the responses vary. -/
structure SameVariant (config : Cache.CacheConfig) (r₁ r₂ : Request) : Prop extends SameTarget r₁ r₂ where
  lines : ∀ name ∈ config.vary, r₁.lines name = r₂.lines name

end Pulsate.Http
