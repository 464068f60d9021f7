import Pulsate.Flow.Value
import Pulsate.K8s.Crd
import Pulsate.Lib.OrdMap
import Mathlib.Data.Prod.Lex

/-!
# From Gateway API objects to Flow text (`pulsate-k8s::translate`)
-/

namespace Pulsate.K8s

open Pulsate.Flow (natText)

/-! ## Validation -/

/-- A label of 1 to 63 bytes of `a-z`, `0-9` and `-` that neither starts nor ends with `-`. -/
def isDnsLabel (label : Str) : Bool :=
  label ≠ [] && label.len ≤ 63 && label.head?.all Char.isAlphanum && label.getLast?.all Char.isAlphanum &&
    label.all (fun c => c.isLower || c.isDigit || c == '-')

def isValidHostname (host : Str) : Bool :=
  let host := (host.stripPrefix "*.").getD host
  host ≠ [] && host.len ≤ 253 && (host.splitOn '.').all isDnsLabel

def isValidMethod (method : Str) : Bool := method ≠ [] && method.all Char.isAlpha

def hasUnsafeChar (s : Str) : Bool :=
  s.any (fun c => Str.isWhitespace c || Str.isControl c || c == '{' || c == '}' || c == '(' || c == ')' ||
    c == '"' || c == '~' || c == '>' || c == '<' || c == '#' || c == '@')

def isValidPathValue (value : Str) : Bool := value.head? == some '/' && !hasUnsafeChar value

def matchIsValid (m : HTTPRouteMatch) : Bool :=
  m.path.all (fun p => isValidPathValue p.value) && m.method.all isValidMethod

def backendIsValid (b : HTTPBackendRef) : Bool := isDnsLabel b.name && b.ns.all isDnsLabel

def routeIsValid (route : HTTPRoute) : Bool :=
  route.hostnames.all isValidHostname &&
    route.rules.all (fun rule => rule.matches_.all matchIsValid && rule.backendRefs.all backendIsValid)

/-! ## Names and lines -/

/-- Letters and digits in lower case, everything else as `_`. -/
def sanitize (s : Str) : Str := s.map (fun c => if c.isAlphanum then c.toLower else '_')

def upstreamName (ns route : Str) (ruleIdx : Nat) : Str :=
  "up_" ++ sanitize ns ++ "_" ++ sanitize route ++ "_" ++ natText ruleIdx

def defaultBackendPort : UInt16 := 80

def targetLine (routeNs : Str) (b : HTTPBackendRef) : Str :=
  let url := "http://" ++ b.name ++ "." ++ b.ns.getD routeNs ++ ".svc:" ++
    natText (b.port.getD defaultBackendPort).toNat
  let weight := b.weight.getD 1
  if weight = 1 then "  target " ++ url ++ "\n"
  else "  target " ++ url ++ " weight=" ++ natText weight.toNat ++ "\n"

def upstreamBlock (name : Str) (rule : HTTPRouteRule) (routeNs : Str) : Str :=
  "upstream " ++ name ++ " \x7b\n" ++ rule.backendRefs.flatMap (targetLine routeNs) ++ "\x7d"

inductive MatchKind
  | Exact
  | Prefix
  deriving DecidableEq, Repr

/-- Exact matches first, then longer patterns, then the texts: `(kind_rank, inverse_path_len, pattern,
method, upstream)`, compared from the left. -/
abbrev RouteKey := ℕ ×ₗ ℕ ×ₗ Str ×ₗ Str ×ₗ Str

def routeLine (kind : MatchKind) (pattern : Str) (method : Option Str) (upstream : Str) : RouteKey × Str :=
  let kindRank := match kind with
    | .Exact => 0
    | .Prefix => 1
  let matcher := match kind with
    | .Exact => "= " ++ pattern
    | .Prefix => pattern
  let methodUp := method.map Str.toAsciiUppercase
  let predicate := match methodUp with
    | some m => " [method=" ++ m ++ "]"
    | none => []
  (toLex (kindRank, toLex (2 ^ 64 - 1 - pattern.len, toLex (pattern, toLex (methodUp.getD [], upstream)))),
    "route " ++ matcher ++ predicate ++ " ~> proxy(@" ++ upstream ++ ")")

def prefixToGlob (value : Str) : Str :=
  let trimmed := value.trimEndMatches '/'
  if trimmed = [] then "/*" else trimmed ++ "/*"

/-- The kind and pattern of a match. -/
def matchPattern (m : HTTPRouteMatch) : MatchKind × Str :=
  match m.path with
  | some p =>
    if p.matchType.eqIgnoreAsciiCase "Exact" then (.Exact, p.value) else (.Prefix, prefixToGlob p.value)
  | none => (.Prefix, "/*")

def ruleRouteLines (rule : HTTPRouteRule) (upstream : Str) : List (RouteKey × Str) :=
  if rule.matches_ = [] then [routeLine .Prefix "/*" none upstream]
  else rule.matches_.map (fun m => routeLine (matchPattern m).1 (matchPattern m).2 m.method upstream)

/-! ## Hosts -/

/-- A listener may start with a wildcard label; a route hostname is taken as it is. -/
def hostMatches (listener routeHost : Str) : Bool :=
  match listener.stripPrefix "*." with
  | some suffix =>
    match routeHost.stripSuffix suffix with
    | some p => p.getLast? == some '.' && 1 < p.len
    | none => false
  | none => listener == routeHost

/-- The hosts one listener yields. -/
def listenerHosts (l : Listener) (routeHostnames : List Str) : List (Str × Bool) :=
  if l.hostname.any (fun h => !isValidHostname h) then []
  else
    let isHttps := l.protocol.eqIgnoreAsciiCase "HTTPS"
    match l.hostname with
    | some lh =>
      if routeHostnames = [] then [(lh, isHttps)]
      else (routeHostnames.filter (hostMatches lh)).map (·, isHttps)
    | none =>
      if routeHostnames = [] then [(":default", isHttps)] else routeHostnames.map (·, isHttps)

def hostsFor (gw : Gateway) (routeHostnames : List Str) : List (Str × Bool) :=
  gw.listeners.flatMap (listenerHosts · routeHostnames)

/-! ## Translation -/

structure SiteAcc where
  https : Bool
  routes : Lib.OrdMap RouteKey Str
  deriving DecidableEq

/-- What the translation accumulates: sites by host, upstream blocks by name. -/
@[ext]
structure Acc where
  sites : Lib.OrdMap Str SiteAcc
  upstreams : Lib.OrdMap Str Str
  deriving DecidableEq

def managedClasses (classes : List GatewayClass) (controllerName : Str) : List Str :=
  (classes.filter (·.controllerName = controllerName)).filterMap (·.metadata.name)

/-- The namespace of an object, empty if it has none. -/
def Metadata.nsOrEmpty (m : Metadata) : Str := m.ns.getD []

def Metadata.nameOrEmpty (m : Metadata) : Str := m.name.getD []

def managedGateways (classes : List GatewayClass) (gateways : List Gateway) (controllerName : Str) :
    Lib.OrdMap (Str ×ₗ Str) Gateway :=
  Lib.OrdMap.insertAll ∅
    ((gateways.filter (fun g => (managedClasses classes controllerName).contains g.gatewayClassName)).filterMap
      (fun g => g.metadata.name.map (fun name => (toLex (g.metadata.nsOrEmpty, name), g))))

def parentsOf (managed : Lib.OrdMap (Str ×ₗ Str) Gateway) (route : HTTPRoute) : List Gateway :=
  route.parentRefs.filterMap (fun p =>
    managed.get? (toLex (p.ns.getD route.metadata.nsOrEmpty, p.name)))

/-- Puts a rule's lines on one host. -/
def placeOn (upName upBlock : Str) (lines : List (RouteKey × Str)) (acc : Acc) (host : Str × Bool) : Acc :=
  { sites := acc.sites.alter host.1 (fun old =>
      let site := old.getD ⟨false, ∅⟩
      ⟨site.https || host.2, site.routes.insertAll lines⟩)
    upstreams := acc.upstreams.insert upName upBlock }

def addRule (parents : List Gateway) (route : HTTPRoute) (acc : Acc) (rule : HTTPRouteRule × Nat) : Acc :=
  if rule.1.backendRefs = [] then acc
  else
    let upName := upstreamName route.metadata.nsOrEmpty route.metadata.nameOrEmpty rule.2
    let upBlock := upstreamBlock upName rule.1 route.metadata.nsOrEmpty
    let lines := ruleRouteLines rule.1 upName
    if lines = [] then acc
    else parents.foldl (fun acc gw => (hostsFor gw route.hostnames).foldl (placeOn upName upBlock lines) acc) acc

def addRoute (managed : Lib.OrdMap (Str ×ₗ Str) Gateway) (acc : Acc) (route : HTTPRoute) : Acc :=
  if !routeIsValid route then acc
  else
    let parents := parentsOf managed route
    if parents = [] then acc else route.rules.zipIdx.foldl (addRule parents route) acc

def renderSite (host : Str) (acc : SiteAcc) : Str :=
  if acc.routes.entries = [] then []
  else
    "\nsite ".toList ++ host ++ " \x7b\n".toList ++
      (if acc.https then "  tls auto\n".toList else "  tls off\n".toList) ++
      acc.routes.values.flatMap (fun line => "  ".toList ++ line ++ "\n".toList) ++ "\x7d\n".toList

def header : Str := "# Generated by the pulsate-k8s Gateway API controller. Do not edit.\n"

def render (acc : Acc) : Str :=
  header ++ acc.upstreams.values.flatMap (fun block => "\n".toList ++ block ++ "\n".toList) ++
    acc.sites.entries.flatMap (fun e => renderSite e.1 e.2)

/-- The sites and upstreams of a set of objects. -/
def translate (classes : List GatewayClass) (gateways : List Gateway) (routes : List HTTPRoute)
    (controllerName : Str) : Acc :=
  routes.foldl (addRoute (managedGateways classes gateways controllerName)) ⟨∅, ∅⟩

def toFlow (classes : List GatewayClass) (gateways : List Gateway) (routes : List HTTPRoute)
    (controllerName : Str) : Str :=
  render (translate classes gateways routes controllerName)

end Pulsate.K8s
