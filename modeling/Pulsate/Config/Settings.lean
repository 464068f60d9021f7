import Pulsate.Config.Written

/-!
# Settings

The directives from which the compiler reads a typed value, and what a document writes with them. Directives with the
same keyword in one block write the same setting, and the last of them counts.
-/

namespace Pulsate.Conf

open Pulsate.Flow (Ast Directive Stmt Value)

/-- The directives with one of the keywords. -/
def directivesOf (keys : List Str) (body : List Stmt) : List Directive :=
  body.filterMap (fun
    | .directive d => if d.keyword.node ∈ keys then some d else none
    | _ => none)

/-- The values the directives are given. -/
def values (keys : List Str) (body : List Stmt) : List Value :=
  (directivesOf keys body).filterMap (fun d => firstPositional d.args)

/-- The value of the last one. -/
def lastValue (keys : List Str) (body : List Stmt) : Option Value :=
  (directivesOf keys body).getLast?.bind (fun d => firstPositional d.args)

/-- The rules for addresses in a WAF block. -/
def ipRules (body : List Stmt) : List Stmt := (blocks "ip" body).flatMap (·.body)

/-- What a list of conditions holds; anything else is held to be one. -/
def itemsOf : Value → List Value
  | .array items => items.map (·.node)
  | v => [v]

/-- The conditions for another attempt. -/
def conditions (body : List Stmt) : List Value := (values ["on"] body).flatMap itemsOf

def isConnectError : Value → Bool
  | .str s => s = "connect_error"
  | _ => false

/-! ## Types -/

/-- An integer of an unsigned type. -/
def IsInt (width : Nat) (v : Value) : Prop := ∃ n : Nat, n < 2 ^ width ∧ v = .int n

def IsDuration (v : Value) : Prop := ∃ d, v = .duration d

def IsStr (v : Value) : Prop := ∃ s, v = .str s

def IsStrs (v : Value) : Prop := ∃ items, v = .array items ∧ ∀ i ∈ items, IsStr i.node

/-- An array of statuses and of the one condition that has a name. -/
def IsConditions (v : Value) : Prop :=
  ∃ items, v = .array items ∧ ∀ i ∈ items, IsInt 16 i.node ∨ isConnectError i.node

structure WellTypedRetry (body : List Stmt) : Prop where
  attempts : ∀ v ∈ values ["attempts"] body, IsInt 32 v
  on : ∀ v ∈ values ["on"] body, IsConditions v

structure WellTypedBreaker (body : List Stmt) : Prop where
  failures : ∀ v ∈ values ["min_requests", "consecutive"] body, IsInt 32 v
  openFor : ∀ v ∈ values ["open_for"] body, IsDuration v

structure WellTypedUpstream (body : List Stmt) : Prop where
  policy : ∀ v ∈ values ["policy"] body, IsStr v
  weights : ∀ d ∈ directives "target" body, ∀ v, namedValue d.args "weight" = some v → IsInt 32 v
  retries : ∀ b ∈ blocks "retry" body, WellTypedRetry b.body
  breakers : ∀ b ∈ blocks "breaker" body, WellTypedBreaker b.body

structure WellTypedCache (body : List Stmt) : Prop where
  defaultTtl : ∀ v ∈ values ["default_ttl"] body, IsDuration v
  methods : ∀ v ∈ values ["methods"] body, IsStrs v
  vary : ∀ v ∈ values ["vary"] body, IsStrs v
  swr : ∀ v ∈ values ["stale_while_revalidate"] body, IsDuration v

structure WellTypedWaf (body : List Stmt) : Prop where
  mode : ∀ v ∈ values ["mode"] body, IsStr v
  deny : ∀ v ∈ values ["deny"] (ipRules body), IsStrs v
  allow : ∀ v ∈ values ["allow"] (ipRules body), IsStrs v

/-- Every setting is given values of its type, unit and range only. -/
structure WellTyped (ast : Ast) : Prop where
  version : ∀ v ∈ values ["flow_version"] ast.stmts, IsStr v
  upstreams : ∀ b ∈ blocks "upstream" ast.stmts, WellTypedUpstream b.body
  caches : ∀ b ∈ blocks "cache" ast.stmts, WellTypedCache b.body
  wafs : ∀ b ∈ blocks "waf" ast.stmts, WellTypedWaf b.body

/-! ## Values -/

/-- The strings are those of an array. -/
def Lists (v : Value) (ss : List Str) : Prop := ∃ items, v = .array items ∧ items.map (·.node) = ss.map .str

structure RetryAsWritten (body : List Stmt) (r : Retry) : Prop where
  attempts : ∀ v, lastValue ["attempts"] body = some v → v = .int r.attempts
  statuses : (conditions body).filter (fun v => !isConnectError v) = r.retryOnStatus.map (fun s : Nat => Value.int s)
  connect : values ["on"] body ≠ [] → (r.onConnectError ↔ ∃ v ∈ conditions body, isConnectError v)

structure BreakerAsWritten (body : List Stmt) (b : Breaker) : Prop where
  failures : ∀ v, lastValue ["min_requests", "consecutive"] body = some v → v = .int b.consecutiveFailures
  openFor : ∀ v, lastValue ["open_for"] body = some v → v = .duration ⟨b.openForSecs, 0⟩

structure UpstreamAsWritten (env : Str → Option Str) (b : Block) (u : Upstream) : Prop where
  policy : ∀ v, lastValue ["policy"] b.body = some v → v = .str u.policy
  weights : List.Forall₂ (fun d (t : Target) => ∀ v, namedValue d.args "weight" = some v → v = .int t.weight)
    ((directives "target" b.body).filter (fun d => ((firstPositional d.args).bind (resolveStr env)).isSome)) u.targets
  retry : ∀ rb, (blocks "retry" b.body).getLast? = some rb → ∃ r, u.retry = some r ∧ RetryAsWritten rb.body r
  breaker : ∀ bb, (blocks "breaker" b.body).getLast? = some bb → ∃ br, u.breaker = some br ∧ BreakerAsWritten bb.body br

structure CacheAsWritten (b : Block) (c : CacheDef) : Prop where
  defaultTtl : ∀ v, lastValue ["default_ttl"] b.body = some v → v = .duration ⟨c.defaultTtlSecs, 0⟩
  methods : ∀ v, lastValue ["methods"] b.body = some v → Lists v c.methods
  vary : ∀ v, lastValue ["vary"] b.body = some v → Lists v c.vary
  swr : ∀ v, lastValue ["stale_while_revalidate"] b.body = some v → v = .duration ⟨c.swrSecs, 0⟩

structure WafAsWritten (b : Block) (w : WafDef) : Prop where
  mode : ∀ v, lastValue ["mode"] b.body = some v → v = .str w.mode
  deny : ∀ v, lastValue ["deny"] (ipRules b.body) = some v → Lists v w.ipDeny
  allow : ∀ v, lastValue ["allow"] (ipRules b.body) = some v → Lists v w.ipAllow

/-- Every setting has the value that is written for it. -/
structure AsWritten (env : Str → Option Str) (ast : Ast) (config : Config) : Prop where
  version : ∀ v, lastValue ["flow_version"] ast.stmts = some v → config.flowVersion.map .str = some v
  upstreams : List.Forall₂ (UpstreamAsWritten env) (blocks "upstream" ast.stmts) config.upstreams
  caches : List.Forall₂ CacheAsWritten (blocks "cache" ast.stmts) config.caches
  wafs : List.Forall₂ WafAsWritten (blocks "waf" ast.stmts) config.wafs

/-! ## What the typed configuration cannot say -/

/-- The configuration has whole seconds, and retries after a failed connection whatever the conditions are. -/
structure Expressible (ast : Ast) : Prop where
  openFor : ∀ b ∈ blocks "upstream" ast.stmts, ∀ bb, (blocks "breaker" b.body).getLast? = some bb →
    ∀ d, lastValue ["open_for"] bb.body = some (.duration d) → d.nanos = 0
  connect : ∀ b ∈ blocks "upstream" ast.stmts, ∀ rb, (blocks "retry" b.body).getLast? = some rb →
    values ["on"] rb.body ≠ [] → ∃ v ∈ conditions rb.body, isConnectError v
  defaultTtl : ∀ b ∈ blocks "cache" ast.stmts, ∀ d, lastValue ["default_ttl"] b.body = some (.duration d) → d.nanos = 0
  swr : ∀ b ∈ blocks "cache" ast.stmts, ∀ d, lastValue ["stale_while_revalidate"] b.body = some (.duration d) → d.nanos = 0

/-! ## Addresses -/

/-- The range that a value stands for, if it is one. -/
def rangeOf : Value → Option Waf.Cidr
  | .str s => Waf.Cidr.parse s
  | _ => none

/-- What is written behind `allow` among the rules for addresses; a list stands for its items. -/
def Block.allowEntries (b : Block) : List Value :=
  (directivesOf ["allow"] (ipRules b.body)).flatMap (fun d => d.args.flatMap (fun a => itemsOf (argValue a).node))

/-- The address lies in none of the ranges among the entries. -/
def Block.Outside (b : Block) (ip : IpAddr) : Prop :=
  ∀ v ∈ b.allowEntries, ∀ c, rangeOf v = some c → c.contains ip.toCanonical = false

def arrayItems : Value → List Value
  | .array items => items.map (·.node)
  | _ => []

/-- The ranges in the array that the last of the directives is given. -/
def Block.ranges (key : Str) (b : Block) : List Waf.Cidr :=
  (((lastValue [key] (ipRules b.body)).map arrayItems).getD []).filterMap rangeOf

/-- The ranges of the block are against the address. -/
def Block.TurnsAway (b : Block) (ip : IpAddr) : Prop :=
  if b.ranges "allow" = [] then ∃ c ∈ b.ranges "deny", c.contains ip.toCanonical
  else ∀ c ∈ b.ranges "allow", c.contains ip.toCanonical = false

/-- Some address list of the route blocks every address that lies in none of the entries. -/
def FailsClosed (b : Block) (r : Routing.Route) : Prop :=
  ∀ ip, b.Outside ip → ∃ acl, .ip acl ∈ r.middleware ∧ (acl.check ip).isSome

end Pulsate.Conf
