import Pulsate.Flow.Syntax

/-!
# The typed configuration (`pulsate-config::model`)
-/

namespace Pulsate.Conf

open Pulsate.Flow (Span MatchKind)

structure Named where
  name : Str
  span : Span
  deriving DecidableEq, Repr

structure CacheDef where
  name : Str
  span : Span
  defaultTtlSecs : Nat
  methods : List Str
  vary : List Str
  swrSecs : Nat
  deriving DecidableEq, Repr

structure WafDef where
  name : Str
  span : Span
  mode : Str
  ipDeny : List Str
  ipAllow : List Str
  deriving DecidableEq, Repr

inductive MwSpec
  | stripPrefix (path : Str)
  | cors (origins methods : List Str) (credentials : Bool)
  | rateLimit (count perSecs : Nat) (key : Str)
  | waf (name : Str)
  | cache (name : Str)
  deriving DecidableEq, Repr

structure Target where
  url : Str
  weight : Nat
  deriving DecidableEq, Repr

structure Retry where
  attempts : Nat
  retryOnStatus : List Nat
  onConnectError : Bool
  deriving DecidableEq, Repr

structure Breaker where
  consecutiveFailures : Nat
  openForSecs : Nat
  deriving DecidableEq, Repr

structure Upstream where
  name : Str
  span : Span
  targets : List Target
  policy : Str
  retry : Option Retry
  breaker : Option Breaker
  deriving DecidableEq, Repr

inductive TlsMode
  | auto
  | off
  | manual
  deriving DecidableEq, Repr

structure Host where
  pattern : Str
  span : Span
  deriving DecidableEq, Repr

/-- A terminal handler; the router has the same type under the same name. -/
inductive Handler
  | files (root : Str) (tryFiles : List Str)
  | respond (status : Nat) (body : Str)
  | redirect (dest : Str) (status : Nat)
  | proxy (upstream target : Option Str)
  | other (name : Str)
  deriving DecidableEq, Repr

structure RefUse where
  name : Str
  span : Span
  deriving DecidableEq, Repr

structure RouteDef where
  kind : MatchKind
  pattern : Str
  method : Option Str
  middleware : List Str
  mwSpecs : List MwSpec
  handler : Option Handler
  refs : List RefUse
  span : Span
  deriving DecidableEq, Repr

structure Site where
  hosts : List Host
  tls : TlsMode
  routes : List RouteDef
  span : Span
  deriving DecidableEq, Repr

structure Config where
  flowVersion : Option Str
  upstreams : List Upstream
  caches : List CacheDef
  wafs : List WafDef
  userSets : List Named
  sites : List Site
  deriving DecidableEq, Repr

namespace Config

def empty : Config := ⟨none, [], [], [], [], []⟩

/-- Every name that a reference can mention. -/
def definedNames (c : Config) : List Str :=
  c.upstreams.map (·.name) ++ c.caches.map (·.name) ++ c.wafs.map (·.name) ++ c.userSets.map (·.name)

def waf (c : Config) (name : Str) : Option WafDef := c.wafs.find? (·.name = name)

end Config

end Pulsate.Conf
