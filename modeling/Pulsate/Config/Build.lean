import Pulsate.Proxy.Registry
import Pulsate.Router.Router

/-!
# Building the data plane's tables (`pulsate-config::router`)
-/

namespace Pulsate.Conf

open Routing (Mw CacheConfig CacheLayer Route SiteRoutes Router)
open Proxy (Registry RetryPolicy BreakerPolicy Policy)

/-! ## Upstreams -/

def buildUpstream (up : Upstream) : Proxy.Upstream :=
  Proxy.Upstream.new up.name (up.targets.map (fun t => (t.url, t.weight))) (Policy.parse up.policy)
    (match up.retry with
      | some r => ⟨r.attempts, r.retryOnStatus, r.onConnectError⟩
      | none => RetryPolicy.default)
    (match up.breaker with
      | some b => ⟨b.consecutiveFailures, .fromSecs (UInt64.ofNat b.openForSecs)⟩
      | none => BreakerPolicy.default)

def buildUpstreams (config : Config) : Registry :=
  config.upstreams.foldl (fun registry up => Registry.add registry (buildUpstream up)) ∅

/-! ## Routes -/

/-- The settings of a named cache; what it does not set keeps its default. -/
def buildCacheConfig (c : CacheDef) : CacheConfig where
  defaultTtlSecs := c.defaultTtlSecs
  methods := c.methods
  vary := c.vary
  staleWhileRevalidateSecs := c.swrSecs
  maxEntries := 10000
  maxBodyBytes := 2 ^ 20
  maxTotalBytes := 256 * 2 ^ 20

/-- One cache layer for each named cache; of two with one name the later stays. -/
def buildCacheLayers (config : Config) : Lib.OrdMap Str CacheLayer :=
  config.caches.zipIdx.foldl (fun layers p => layers.insert p.1.name ⟨p.2, buildCacheConfig p.1⟩) ∅

def buildIpAcl (deny allow : List Str) : Option Waf.IpAcl :=
  let acl : Waf.IpAcl := ⟨allow.filterMap Waf.Cidr.parse, deny.filterMap Waf.Cidr.parse⟩
  if acl.allow = [] ∧ acl.deny = [] then none else some acl

def buildMw (config : Config) : MwSpec → List Mw
  | .stripPrefix p => [.stripPrefix p]
  | .cors origins methods credentials => [.cors origins methods credentials]
  | .rateLimit count perSecs key => [.rateLimit ⟨count, perSecs⟩ key]
  | .waf name =>
    match config.waf name with
    | some waf =>
      ((buildIpAcl waf.ipDeny waf.ipAllow).map Mw.ip).toList ++
        [.waf ⟨if waf.mode = "detect" then .detect else .block⟩]
    | none => []
  | .cache _ => []

/-- The layer of the last `cache` step. -/
def buildCache (layers : Lib.OrdMap Str CacheLayer) (specs : List MwSpec) : Option CacheLayer :=
  specs.foldl (fun cache spec =>
    match spec with
    | .cache name => layers.get? name
    | _ => cache) none

def buildRoute (config : Config) (layers : Lib.OrdMap Str CacheLayer) (r : RouteDef) : Option Route :=
  r.handler.map (fun handler =>
    { kind := r.kind
      pattern := r.pattern
      method := r.method
      middleware := r.mwSpecs.flatMap (buildMw config)
      cache := buildCache layers r.mwSpecs
      handler })

def buildRouter (config : Config) : Router :=
  let layers := buildCacheLayers config
  ⟨config.sites.map (fun site =>
    ⟨site.hosts.map (·.pattern), site.routes.filterMap (buildRoute config layers)⟩)⟩

/-! ## Moderate times -/

/-- Half of the seconds that an `Instant` can be ahead. -/
def longestOpen : Nat := 2 ^ 62

/-- Three quarters of the seconds that a duration can last. -/
def longestWindow : Nat := 3 * 2 ^ 62

/-- No breaker stays open, and no response is served stale, for longer. -/
structure Moderate (config : Config) : Prop where
  openFor : ∀ u ∈ config.upstreams, ∀ b ∈ u.breaker, b.openForSecs ≤ longestOpen
  swr : ∀ c ∈ config.caches, c.swrSecs ≤ longestWindow

end Pulsate.Conf
