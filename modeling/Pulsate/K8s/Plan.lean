import Pulsate.Flow.Document
import Pulsate.K8s.Placement

/-!
# What a translation means

A plan is the configuration a set of placements stands for, as data: upstreams with their targets, and
sites with their routes in order of precedence. The text of the translation is that of the plan's document.
-/

namespace Pulsate.K8s

open Pulsate.Flow (natText)

/-! ## Upstreams -/

structure Target where
  url : Str
  weight : Nat
  deriving DecidableEq, Repr

def target (routeNs : Str) (b : HTTPBackendRef) : Target where
  url := "http://" ++ b.name ++ "." ++ b.ns.getD routeNs ++ ".svc:" ++
    natText (b.port.getD defaultBackendPort).toNat
  weight := (b.weight.getD 1).toNat

def Target.line (t : Target) : Flow.Line :=
  .directive "target" (.positional t.url :: if t.weight = 1 then [] else [.named "weight" (natText t.weight)])

def Emitted.targets (e : Emitted) : List Target := e.rule.backendRefs.map (target e.ns)

/-! ## Routes -/

/-- The matches of a rule, which matches everything if it lists none. -/
def HTTPRouteRule.effective (rule : HTTPRouteRule) : List HTTPRouteMatch :=
  if rule.matches_ = [] then [⟨none, none⟩] else rule.matches_

/-- A match and where it leads, its method in upper case. -/
structure Entry where
  kind : MatchKind
  pattern : Str
  method : Option Str
  upstream : Str
  deriving DecidableEq, Repr

def Entry.ofMatch (upstream : Str) (m : HTTPRouteMatch) : Entry :=
  ⟨(matchPattern m).1, (matchPattern m).2, m.method.map Str.toAsciiUppercase, upstream⟩

def Entry.key (n : Entry) : RouteKey :=
  toLex (match n.kind with | .Exact => 0 | .Prefix => 1, toLex (2 ^ 64 - 1 - n.pattern.len,
    toLex (n.pattern, toLex (n.method.getD [], n.upstream))))

def Entry.line (n : Entry) : Flow.Line :=
  .route
    { exact := n.kind = .Exact
      pattern := n.pattern
      predicate := n.method.map (("method", ·))
      handler := "proxy"
      arg := "@" ++ n.upstream }

def Emitted.entries (e : Emitted) : List Entry := e.rule.effective.map (Entry.ofMatch e.upName)

/-! ## Plans -/

@[ext]
structure SitePlan where
  https : Bool
  routes : Lib.OrdMap RouteKey Entry

/-- Upstreams by name and sites by host. -/
@[ext]
structure Plan where
  upstreams : Lib.OrdMap Str (List Target)
  sites : Lib.OrdMap Str SitePlan

/-- What the placements on one host make up. -/
def sitePlan (ps : List Placement) (host : Str) : SitePlan where
  https := ps.any (fun p => p.host = host ∧ p.https)
  routes := Lib.OrdMap.insertAll ∅
    ((ps.filter (·.host = host)).flatMap (fun p => p.toEmitted.entries.map (fun n => (n.key, n))))

def plan (ps : List Placement) : Plan where
  upstreams := Lib.OrdMap.insertAll ∅ (ps.map (fun p => (p.toEmitted.upName, p.toEmitted.targets)))
  sites := Lib.OrdMap.insertAll ∅ (ps.map (fun p => (p.host, sitePlan ps p.host)))

/-! ## Documents -/

def upstreamDoc (name : Str) (targets : List Target) : Flow.Block :=
  ⟨"upstream", [.positional name], targets.map Target.line⟩

def tlsLine (https : Bool) : Flow.Line := .directive "tls" [.positional (if https then "auto" else "off")]

def siteDoc (host : Str) (s : SitePlan) : Flow.Block :=
  ⟨"site", [.positional host], tlsLine s.https :: s.routes.values.map Entry.line⟩

/-- The upstreams and the sites of a plan, in the order they are written. -/
def Plan.document (p : Plan) : Flow.Document where
  comment := " Generated by the pulsate-k8s Gateway API controller. Do not edit."
  blocks := p.upstreams.entries.map (fun e => upstreamDoc e.1 e.2) ++ p.sites.entries.map (fun e => siteDoc e.1 e.2)

end Pulsate.K8s
