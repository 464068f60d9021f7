import Pulsate.Config.Build
import Pulsate.Config.Compile
import Pulsate.Router.Precedence

/-!
# The predicates of a route

What the documentation says a predicate in brackets asks of a request, and whether a compiled route asks it.
-/

namespace Pulsate.Conf

structure Request where
  host : Str
  path : Str
  method : Str
  headers : List (Str × Str)
  query : List (Str × Str)
  deriving DecidableEq, Repr

/-- A field is present, with the value unless any will do. -/
def Present (same : Str → Bool) (value : Str) (fields : List (Str × Str)) : Prop :=
  ∃ f ∈ fields, same f.1 ∧ (value = ['*'] ∨ f.2 = value)

/-- The request satisfies the predicate. No request satisfies one that asks for something else. -/
def Holds (p : Flow.Predicate) (req : Request) : Prop :=
  if p.key = "method" then p.value = ['*'] ∨ p.value.eqIgnoreAsciiCase req.method
  else if p.key = "host" then
    p.value = ['*'] ∨ p.value.eqIgnoreAsciiCase (Routing.hostWithoutPort req.host)
  else
    match p.key.stripPrefix "header.", p.key.stripPrefix "query." with
    | some name, _ => Present (·.eqIgnoreAsciiCase name) p.value req.headers
    | none, some name => Present (· == name) p.value req.query
    | none, none => False

/-- The routes written in the sites of a document. -/
def siteRoutes (ast : Flow.Ast) : List Flow.Route :=
  ast.stmts.flatMap (fun
    | .block kw _ body _ =>
      if kw.node = "site" then
        body.filterMap (fun
          | .route r => some r
          | _ => none)
      else []
    | _ => [])

/-- The routes written in the sites of a text. -/
def writtenRoutes (text : Str) : List Flow.Route :=
  match Flow.parse text with
  | .ok ast => siteRoutes ast
  | .error _ => []

/-- The route as the data plane has it. -/
def builtRoute (config : Config) (rt : Flow.Route) : Option Routing.Route :=
  buildRoute config (buildCacheLayers config) (lowerRoute rt).1

/-- The predicates restrict the route: requests that are routed to it satisfy them, and so does every request it
matches. -/
structure Restricted (config : Config) (rt : Flow.Route) : Prop where
  selected : ∀ r, builtRoute config rt = some r → ∀ req : Request,
    (buildRouter config).route req.host req.path req.method = some r → ∀ p ∈ rt.matcher.predicates, Holds p req
  enforced : ∀ r, builtRoute config rt = some r → ∀ req : Request, r.Matches req.path req.method →
    ∀ p ∈ rt.matcher.predicates, Holds p req

/-- The engine looks at nothing but the first method a route names: another predicate has to follow from that, or ask
for nothing. -/
def Redundant (rt : Flow.Route) (p : Flow.Predicate) : Prop :=
  (p.key = "host".toList ∧ p.value = ['*']) ∨
    (p.key = "method".toList ∧ (p.value = ['*'] ∨
      ∃ q, rt.matcher.predicates.find? (·.key = "method".toList) = some q ∧ p.value.eqIgnoreAsciiCase q.value))

end Pulsate.Conf
