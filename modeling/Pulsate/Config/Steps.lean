import Pulsate.Config.Written

/-!
# What becomes of the steps of a route
-/

namespace Pulsate.Conf

open Pulsate.Flow (Ast Step)
open Routing (Mw CacheLayer)

/-- What a request meets on its way to the handler. -/
inductive Element
  | mw (mw : Mw)
  | cache (layer : CacheLayer)
  deriving DecidableEq, Repr

/-- The address list of a WAF block; it comes in front of the engine of the same block. -/
def isIp : Mw → Bool
  | .ip _ => true
  | _ => false

def isWaf : Mw → Bool
  | .waf _ => true
  | _ => false

/-- The elements of a route in the order a request meets them, the address lists left out. -/
def elements (r : Routing.Route) : List Element :=
  (r.middleware.filter (fun m => !isIp m)).map .mw ++ r.cache.toList.map .cache

/-- The engine a WAF block asks for. -/
def Block.engine (b : Block) : Waf.WafEngine :=
  ⟨if (lowerWaf b.keyword b.args b.body).mode = "detect" then .detect else .block⟩

/-- The layer a cache block asks for, as the `i`-th of the document. -/
def Block.layer (b : Block) (i : Nat) : CacheLayer := ⟨i, buildCacheConfig (lowerCache b.keyword b.args b.body)⟩

/-- The element is what the step asks for. -/
inductive Corresponds (ast : Ast) (s : Step) : Element → Prop
  | stripPrefix {path : Str} (asks : Asks s (.stripPrefix path)) : Corresponds ast s (.mw (.stripPrefix path))
  | cors {origins methods : List Str} {credentials : Bool} (asks : Asks s (.cors origins methods credentials)) :
      Corresponds ast s (.mw (.cors origins methods credentials))
  | rateLimit {count perSecs : Nat} {key : Str} (asks : Asks s (.rateLimit count perSecs key)) :
      Corresponds ast s (.mw (.rateLimit ⟨count, perSecs⟩ key))
  | waf {b : Block} (block : b ∈ blocks "waf" ast.stmts) (asks : Asks s (.waf b.name)) :
      Corresponds ast s (.mw (.waf b.engine))
  | cache {b : Block} {i : Nat} (block : (blocks "cache" ast.stmts)[i]? = some b) (asks : Asks s (.cache b.name)) :
      Corresponds ast s (.cache (b.layer i))

/-- The steps of a route that guard it. -/
def guards (rt : Flow.Route) : List Step := rt.steps.filter (fun s => s.name.node ∈ protective)

/-- Every guard is in the built route: the cache in its own place, the others in the order of the text. -/
structure Kept (ast : Ast) (rt : Flow.Route) (r : Routing.Route) : Prop where
  middleware : List.Forall₂ (fun s m => Corresponds ast s (.mw m)) ((guards rt).filter (fun s => s.name.node ≠ "cache"))
    (r.middleware.filter (fun m => !isIp m))
  cache : ∀ s ∈ guards rt, s.name.node = "cache" → ∃ layer, r.cache = some layer ∧ Corresponds ast s (.cache layer)

/-- Every guard is in the built route, where a request meets it in the order of the text. -/
def KeptInOrder (ast : Ast) (rt : Flow.Route) (r : Routing.Route) : Prop :=
  List.Forall₂ (Corresponds ast) (guards rt) (elements r)

/-- The guards have arguments that the compiler reads. -/
structure WellArgued (ast : Ast) (rt : Flow.Route) : Prop where
  stripPrefix : ∀ s ∈ rt.steps, s.name.node = "strip_prefix" → ∃ path, firstPositional s.args = some (.str path)
  rateLimit : ∀ s ∈ rt.steps, s.name.node = "rate_limit" → ∃ count per, firstPositional s.args = some (.rate count per)
  waf : ∀ s ∈ rt.steps, s.name.node = "waf" → ∃ name ∈ wafNames ast, firstRef s.args = some name
  cache : ∀ s ∈ rt.steps, s.name.node = "cache" → ∃ name ∈ cacheNames ast, firstRef s.args = some name
  oneCache : ∀ s ∈ rt.steps, ∀ t ∈ rt.steps, s.name.node = "cache" → t.name.node = "cache" →
    firstRef s.args = firstRef t.args

end Pulsate.Conf
