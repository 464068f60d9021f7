import Pulsate.Config.Model
import Pulsate.Lib.MaxBy
import Pulsate.Waf.Acl

/-!
# The routing table (`pulsate-router`)

With the parts of the pipeline and cache crates that a route holds.
-/

namespace Pulsate.Routing

open Pulsate.Flow (MatchKind)
open Conf (Handler)

/-! ## What a route holds -/

inductive Mw
  | stripPrefix (path : Str)
  | headers (set : List (Str × Str)) (remove : List Str)
  | cors (origins methods : List Str) (credentials : Bool)
  | rateLimit (limiter : Waf.RateLimiter) (key : Str)
  | waf (engine : Waf.WafEngine)
  | ip (acl : Waf.IpAcl)
  deriving DecidableEq, Repr

structure CacheConfig where
  defaultTtlSecs : Nat
  methods : List Str
  vary : List Str
  staleWhileRevalidateSecs : Nat
  maxEntries : Nat
  maxBodyBytes : Nat
  maxTotalBytes : Nat
  deriving DecidableEq, Repr

/-- A cache layer: its settings and which of the configured stores, counted in order, it writes to. -/
structure CacheLayer where
  store : Nat
  config : CacheConfig
  deriving DecidableEq, Repr

structure Route where
  kind : MatchKind
  pattern : Str
  method : Option Str
  middleware : List Mw
  cache : Option CacheLayer
  handler : Handler
  deriving DecidableEq, Repr

structure SiteRoutes where
  hosts : List Str
  routes : List Route
  deriving DecidableEq, Repr

structure Router where
  sites : List SiteRoutes
  deriving DecidableEq, Repr

/-! ## Scores -/

/-- The path a prefix pattern stands for. -/
def prefixOf (pattern : Str) : Str :=
  let p := (pattern.stripSuffix "*").getD pattern
  let p := (Str.stripSuffix p "/").getD p
  if p = "/" then [] else p

def withSlash (path : Str) : Str := if path.getLast? = some '/' then path else path ++ ['/']

def Route.score (r : Route) (path method : Str) : Option Nat :=
  if r.method.any (fun m => !m.eqIgnoreAsciiCase method) then none
  else
    match r.kind with
    | .Exact => if r.pattern = path then some 1000000 else none
    | .Prefix =>
      let p := prefixOf r.pattern
      if p = [] ∨ path = p ∨ withSlash p <+: path then
        some ((1000 + if p.len < 2 ^ 32 then p.len else 0) % 2 ^ 32)
      else none
    | .Regex => if r.pattern = path then some 10 else none

/-- How well one host pattern matches. -/
def patternScore (pat host : Str) : Option Nat :=
  if pat = host then some 3
  else if pat = ":default" then some 1
  else
    match pat.stripPrefix "*." with
    | some suffix => if suffix.len < host.len ∧ suffix <:+ host then some 2 else none
    | none => none

def SiteRoutes.hostScore (site : SiteRoutes) (host : Str) : Option Nat :=
  site.hosts.foldl (fun best pat => max best (patternScore pat host)) none

/-! ## Routing -/

def hostWithoutPort (host : Str) : Str :=
  match host.splitOnce ":" with
  | some (h, _) => h
  | none => host

namespace Router

/-- The site that serves a host. -/
def siteFor (router : Router) (host : Str) : Option SiteRoutes :=
  let host := hostWithoutPort host
  (Lib.maxByKey Prod.fst
    (router.sites.filterMap (fun s => (s.hostScore host).map (fun sc => (sc, s))))).map (·.2)

/-- The route of a site that serves a path and method. -/
def routeIn (site : SiteRoutes) (path method : Str) : Option Route :=
  (Lib.maxByKey Prod.fst
    (site.routes.filterMap (fun r => (r.score path method).map (fun sc => (sc, r))))).map (·.2)

def route (router : Router) (host path method : Str) : Option Route :=
  (router.siteFor host).bind (fun site => routeIn site path method)

end Router

end Pulsate.Routing
