import Pulsate.K8s.Translate

/-!
# Placements

What a translation comes down to: the rules that are emitted, and the hosts each of them is put on. The
nested loops of the translation put one placement after another into the two maps.
-/

namespace Pulsate.K8s

/-- A rule of a valid route, with the index that goes into its upstream's name. -/
structure Emitted where
  route : HTTPRoute
  rule : HTTPRouteRule
  idx : Nat
  deriving DecidableEq, Repr

namespace Emitted

def ns (e : Emitted) : Str := e.route.metadata.nsOrEmpty

def name (e : Emitted) : Str := e.route.metadata.nameOrEmpty

def upName (e : Emitted) : Str := upstreamName e.ns e.name e.idx

def block (e : Emitted) : Str := upstreamBlock e.upName e.rule e.ns

def lines (e : Emitted) : List (RouteKey × Str) := ruleRouteLines e.rule e.upName

end Emitted

/-- The hosts a route's parents expose to it, over all their listeners. -/
def hostsOf (managed : Lib.OrdMap (Str ×ₗ Str) Gateway) (route : HTTPRoute) : List (Str × Bool) :=
  (parentsOf managed route).flatMap (hostsFor · route.hostnames)

def emittedRules (managed : Lib.OrdMap (Str ×ₗ Str) Gateway) (route : HTTPRoute) : List Emitted :=
  if routeIsValid route ∧ hostsOf managed route ≠ [] then
    (route.rules.zipIdx.filter (fun r => r.1.backendRefs ≠ [])).map (fun r => ⟨route, r.1, r.2⟩)
  else []

/-- The rules that reach the output, in the order of the translation. -/
def emitted (managed : Lib.OrdMap (Str ×ₗ Str) Gateway) (routes : List HTTPRoute) : List Emitted :=
  routes.flatMap (emittedRules managed)

/-- A rule on one host. -/
structure Placement where
  toEmitted : Emitted
  host : Str
  https : Bool
  deriving DecidableEq, Repr

def placements (managed : Lib.OrdMap (Str ×ₗ Str) Gateway) (routes : List HTTPRoute) : List Placement :=
  (emitted managed routes).flatMap (fun e => (hostsOf managed e.route).map (fun h => ⟨e, h.1, h.2⟩))

def Placement.place (acc : Acc) (p : Placement) : Acc :=
  placeOn p.toEmitted.upName p.toEmitted.block p.toEmitted.lines acc (p.host, p.https)

end Pulsate.K8s
