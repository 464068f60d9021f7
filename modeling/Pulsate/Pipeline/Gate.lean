import Pulsate.Pipeline.Cors

/-!
# Which requests a pipeline lets through

What the steps of a pipeline do to a request, one by one and without regard to what comes before.
-/

namespace Pulsate.Pipeline

open Http (Response)
open Routing (Mw)
open Waf (Buckets RateOutcome)

/-- The path that a step passes on. -/
def rewriteStep (path : Str) (mw : Mw) : Str :=
  match mw with
  | .stripPrefix strip => ((path.stripPrefix strip).map normalizePath).getD path
  | _ => path

/-- The path behind the steps. -/
def rewritten (pipeline : List Mw) (path : Str) : Str := pipeline.foldl rewriteStep path

/-- The step turns the request away. -/
def rejects (now : Nat) (mw : Mw) (buckets : Buckets) (req : RequestView) : Bool :=
  match mw with
  | .ip acl => (req.clientIp.bind acl.check).isSome
  | .waf engine => (engine.inspect req.pathAndQuery).isSome
  | .rateLimit limiter key => !(limiter.check now (rateKey key req) buckets).1.allowed
  | _ => false

/-- Some step of the pipeline turns the request away, given the path as the steps in front of it have left it. -/
def Rejected (clock : Nat → Nat) (pipeline : List Mw) (limiters : Nat → Buckets) (req : RequestView) : Prop :=
  ∃ pre mw post, pipeline = pre ++ mw :: post ∧
    rejects (clock pre.length) mw (limiters pre.length) { req with path := rewritten pre req.path }

/-- The limiter of the step counts the request, unless its window has no length and the count of this instant is one already. -/
def counts (now : Nat) (mw : Mw) (buckets : Buckets) (req : RequestView) : Bool :=
  match mw with
  | .rateLimit limiter key => ¬ (limiter.windowSecs = 0 ∧ buckets.get? (rateKey key req) = some (now, 1))
  | _ => false

/-- Some step of the pipeline counts the request. -/
def Counted (clock : Nat → Nat) (pipeline : List Mw) (limiters : Nat → Buckets) (req : RequestView) : Prop :=
  ∃ pre mw post, pipeline = pre ++ mw :: post ∧
    counts (clock pre.length) mw (limiters pre.length) { req with path := rewritten pre req.path }

/-- A browser asks beforehand. -/
def IsPreflight (req : RequestView) : Prop := req.method.eqIgnoreAsciiCase "OPTIONS" ∧ req.origin.isSome

/-- A request as it comes to the step behind these. -/
def RequestView.behind (req : RequestView) (pre : List Mw) : RequestView := { req with path := rewritten pre req.path }

/-- What a step itself says to a request that it turns away or answers. -/
def stepResponse (now : Nat) (mw : Mw) (buckets : Buckets) (req : RequestView) : Option Response :=
  match mw with
  | .ip acl => (req.clientIp.bind acl.check).map (fun block => blocked block.status)
  | .waf engine => (engine.inspect req.pathAndQuery).map (fun block => blocked block.status)
  | .rateLimit limiter key =>
    let outcome := (limiter.check now (rateKey key req) buckets).1
    if outcome.allowed then none else some (rateLimited outcome)
  | .cors origins methods credentials =>
    if req.method.eqIgnoreAsciiCase "OPTIONS" ∧ req.origin.isSome then some (preflight ⟨origins, methods, credentials⟩ req.origin)
    else none
  | _ => none

/-- The buckets of a step that has had the request. -/
def charged (now : Nat) (mw : Mw) (buckets : Buckets) (req : RequestView) : Buckets :=
  match mw with
  | .rateLimit limiter key => (limiter.check now (rateKey key req) buckets).2
  | _ => buckets

/-- Nothing in the pipeline stands in the way of a request from the address. -/
structure Passes (clock : Nat → Nat) (pipeline : List Mw) (limiters : Nat → Buckets) (req : RequestView) (ip : IpAddr) : Prop where
  addresses : ∀ acl, .ip acl ∈ pipeline → acl.check ip = none
  signatures : ∀ engine, .waf engine ∈ pipeline → engine.mode = .block → Waf.WafEngine.detect req.pathAndQuery = none
  limits : ∀ pre limiter key post, pipeline = pre ++ .rateLimit limiter key :: post →
    (limiter.check (clock pre.length) (rateKey key (req.behind pre)) (limiters pre.length)).1.allowed
  preflight : ¬ (IsPreflight req ∧ ∃ origins methods credentials, .cors origins methods credentials ∈ pipeline)

/-- The request has come as far as the step behind `pre`, which has answered it: the limiters up to there have counted it once,
and those behind know nothing of it. -/
structure StoppedAt (clock : Nat → Nat) (limiters : Nat → Buckets) (req : RequestView) (pre : List Mw) (mw : Mw)
    (resp : Response) (after : Nat → Buckets) : Prop where
  first : ∀ p m q, pre = p ++ m :: q → stepResponse (clock p.length) m (limiters p.length) (req.behind p) = none
  response : stepResponse (clock pre.length) mw (limiters pre.length) (req.behind pre) = some resp
  counted : ∀ p m q, pre ++ [mw] = p ++ m :: q → after p.length = charged (clock p.length) m (limiters p.length) (req.behind p)
  behind : ∀ j, pre.length < j → after j = limiters j

/-- A pipeline as a gate for requests from the address. -/
structure Gates (clock : Nat → Nat) (pipeline : List Mw) (limiters : Nat → Buckets) (req : RequestView) (ip : IpAddr) : Prop where
  opens : (ingress clock pipeline limiters req).short = none ↔ Passes clock pipeline limiters req ip
  stops : ∀ resp, (ingress clock pipeline limiters req).short = some resp →
    ∃ pre mw post, pipeline = pre ++ mw :: post ∧
      StoppedAt clock limiters req pre mw resp (ingress clock pipeline limiters req).limiters

/-- The responses to requests that are turned away. -/
inductive Refusal : Response → Prop
  | blocked (status : Nat) : Refusal (blocked status)
  | rateLimited (outcome : RateOutcome) : Refusal (rateLimited outcome)

/-! ## Prefixes -/

/-- A path is a prefix, or goes on behind it with a new segment. -/
def AtBoundary (strip path : Str) : Prop :=
  path = strip.trimEndMatches '/' ∨ strip.trimEndMatches '/' ++ ['/'] <+: path

/-- How a prefix is to be taken off a path. -/
structure Strips (strip path path' : Str) : Prop where
  parts : path' ≠ path → path = strip.trimEndMatches '/' ++ path' ∨ (path = strip.trimEndMatches '/' ∨ path = strip) ∧ path' = ['/']
  whole : strip <+: path → ¬ AtBoundary strip path → path' = path

/-- The prefix and what follows meet in one slash. -/
def Meets (strip rest : Str) : Prop :=
  ¬ ['/', '/'] <:+ strip ∧ (rest.head? = some '/' ↔ strip.getLast? ≠ some '/')

end Pulsate.Pipeline
