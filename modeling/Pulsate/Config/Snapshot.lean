import Pulsate.Config.Written
import Pulsate.Lib.Template

/-!
# Snapshot identity (`build_snapshot` in `pulsate-config::compile`)

The identity of a snapshot is a hash of the configuration's derived `Debug` form. The form is a template with the spans
in its holes.
-/

namespace Pulsate.Conf

open Pulsate.Flow (Ast MatchKind Span debugSpan debugStr natText)
open Lib (Piece Template)
open Lib.Template (sepBy)

/-! ## Derived `Debug` -/

section Derived

variable {α : Type}

/-- `Name { field: .., field: .. }`. -/
def debugStruct (name : Str) (fields : List (Str × Template Char α)) : Template Char α :=
  .text (name ++ " \x7b ".toList) ::
    sepBy ", ".toList (fields.map (fun f => .text (f.1 ++ ": ".toList) :: f.2)) ++ [.text " \x7d".toList]

/-- `Name(..)`. -/
def debugTuple (name : Str) (field : Template Char α) : Template Char α := .text (name ++ ['(']) :: field ++ [.text [')']]

def debugList (items : List (Template Char α)) : Template Char α := .text ['['] :: sepBy ", " items ++ [.text [']']]

def debugOption : Option (Template Char α) → Template Char α
  | none => [.text "None"]
  | some t => debugTuple "Some" t

def debugText (s : Str) : Template Char α := [.text (debugStr s)]

def debugNat (n : Nat) : Template Char α := [.text (natText n)]

def debugBool (b : Bool) : Template Char α := [.text (if b then "true" else "false")]

def debugTexts (l : List Str) : Template Char α := debugList (l.map debugText)

end Derived

def debugTarget (t : Target) : Template Char Span :=
  debugStruct "Target" [("url", debugText t.url), ("weight", debugNat t.weight)]

def debugRetry (r : Retry) : Template Char Span :=
  debugStruct "Retry" [("attempts", debugNat r.attempts),
    ("retry_on_status", debugList (r.retryOnStatus.map debugNat)), ("on_connect_error", debugBool r.onConnectError)]

def debugBreaker (b : Breaker) : Template Char Span :=
  debugStruct "Breaker" [("consecutive_failures", debugNat b.consecutiveFailures),
    ("open_for_secs", debugNat b.openForSecs)]

def debugUpstream (u : Upstream) : Template Char Span :=
  debugStruct "Upstream" [("name", debugText u.name), ("span", [.hole u.span]),
    ("targets", debugList (u.targets.map debugTarget)), ("policy", debugText u.policy),
    ("retry", debugOption (u.retry.map debugRetry)), ("breaker", debugOption (u.breaker.map debugBreaker))]

def debugCache (c : CacheDef) : Template Char Span :=
  debugStruct "CacheDef" [("name", debugText c.name), ("span", [.hole c.span]),
    ("default_ttl_secs", debugNat c.defaultTtlSecs), ("methods", debugTexts c.methods), ("vary", debugTexts c.vary),
    ("swr_secs", debugNat c.swrSecs)]

def debugWaf (w : WafDef) : Template Char Span :=
  debugStruct "WafDef" [("name", debugText w.name), ("span", [.hole w.span]), ("mode", debugText w.mode),
    ("ip_deny", debugTexts w.ipDeny), ("ip_allow", debugTexts w.ipAllow)]

def debugNamed (n : Named) : Template Char Span :=
  debugStruct "Named" [("name", debugText n.name), ("span", [.hole n.span])]

def debugMwSpec : MwSpec → Template Char Span
  | .stripPrefix path => debugTuple "StripPrefix" (debugText path)
  | .cors origins methods credentials =>
    debugStruct "Cors" [("origins", debugTexts origins), ("methods", debugTexts methods),
      ("credentials", debugBool credentials)]
  | .rateLimit count perSecs key =>
    debugStruct "RateLimit" [("count", debugNat count), ("per_secs", debugNat perSecs), ("key", debugText key)]
  | .waf name => debugTuple "Waf" (debugText name)
  | .cache name => debugTuple "Cache" (debugText name)

def debugHandler : Handler → Template Char Span
  | .files root tryFiles => debugStruct "Files" [("root", debugText root), ("try_files", debugTexts tryFiles)]
  | .respond status body => debugStruct "Respond" [("status", debugNat status), ("body", debugText body)]
  | .redirect dest status => debugStruct "Redirect" [("to", debugText dest), ("status", debugNat status)]
  | .proxy upstream target =>
    debugStruct "Proxy" [("upstream", debugOption (upstream.map debugText)),
      ("target", debugOption (target.map debugText))]
  | .other name => debugTuple "Other" (debugText name)

def debugTls : TlsMode → Template Char Span
  | .auto => [.text "Auto"]
  | .off => [.text "Off"]
  | .manual => [.text "Manual"]

def debugKind : MatchKind → Template Char Span
  | .Prefix => [.text "Prefix"]
  | .Exact => [.text "Exact"]
  | .Regex => [.text "Regex"]

def debugRef (r : RefUse) : Template Char Span :=
  debugStruct "RefUse" [("name", debugText r.name), ("span", [.hole r.span])]

def debugRoute (r : RouteDef) : Template Char Span :=
  debugStruct "RouteDef" [("kind", debugKind r.kind), ("pattern", debugText r.pattern),
    ("method", debugOption (r.method.map debugText)), ("middleware", debugTexts r.middleware),
    ("mw_specs", debugList (r.mwSpecs.map debugMwSpec)), ("handler", debugOption (r.handler.map debugHandler)),
    ("refs", debugList (r.refs.map debugRef)), ("span", [.hole r.span])]

def debugHost (h : Host) : Template Char Span :=
  debugStruct "Host" [("pattern", debugText h.pattern), ("span", [.hole h.span])]

def debugSite (s : Site) : Template Char Span :=
  debugStruct "Site" [("hosts", debugList (s.hosts.map debugHost)), ("tls", debugTls s.tls),
    ("routes", debugList (s.routes.map debugRoute)), ("span", [.hole s.span])]

def debugConfig (c : Config) : Template Char Span :=
  debugStruct "Config" [("flow_version", debugOption (c.flowVersion.map debugText)),
    ("upstreams", debugList (c.upstreams.map debugUpstream)), ("caches", debugList (c.caches.map debugCache)),
    ("wafs", debugList (c.wafs.map debugWaf)), ("user_sets", debugList (c.userSets.map debugNamed)),
    ("sites", debugList (c.sites.map debugSite))]

/-- `format!("{config:?}")`. -/
def Config.debug (c : Config) : Str := (debugConfig c).render debugSpan

/-! ## Identity -/

/-- FNV-1a, 64 bits. -/
def fnv1a (s : Str) : UInt64 :=
  (Str.bytes s).foldl (fun hash byte => (hash ^^^ byte.toUInt64) * 0x00000100000001b3) 0xcbf29ce484222325

/-- The `SnapshotId` of a configuration. -/
def snapshotId (c : Config) : UInt64 := fnv1a c.debug

/-! ## Recorded positions -/

def recordedInRoute (r : Flow.Route) : List Span :=
  r.steps.flatMap (fun s => (collectRefs s.args).map (·.span)) ++ [r.span]

def recordedInSite (b : Block) : List Span :=
  (b.args.filterMap lowerHost).map (·.span) ++ (routesIn b.body).flatMap recordedInRoute ++ [b.span]

/-- The positions of a tree that its configuration keeps: those of the keywords of upstreams, caches, wafs and named sets
of users, and in every site those of its hosts, references, routes and of itself. -/
def recorded (ast : Ast) : List Span :=
  (blocks "upstream" ast.stmts).map (·.keyword.span) ++ (blocks "cache" ast.stmts).map (·.keyword.span) ++
    (blocks "waf" ast.stmts).map (·.keyword.span) ++
    ((blocks "users" ast.stmts).filter (fun b => (firstPositionalStr b.args).isSome)).map (·.keyword.span) ++
    (blocks "site" ast.stmts).flatMap recordedInSite

end Pulsate.Conf
