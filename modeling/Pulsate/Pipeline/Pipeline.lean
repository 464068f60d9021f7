import Pulsate.Http.Headers
import Pulsate.Router.Router
import Pulsate.Waf.Engine
import Pulsate.Waf.Limiter

/-!
# The middleware of a route (`pulsate-pipeline`)

Steps run in order on a request and in reverse on a response. The buckets of a limiter are kept apart from its step, under the
number of the step; a step that counts a request reads the clock itself.
-/

namespace Pulsate.Pipeline

open Http (HeaderName HeaderValue Response)
open Routing (Mw)
open Waf (Buckets RateOutcome)

structure Cors where
  origins : List Str
  methods : List Str
  credentials : Bool
  deriving DecidableEq, Repr

structure RequestView where
  method : Str
  path : Str
  pathAndQuery : Str
  origin : Option Str
  clientIp : Option IpAddr
  deriving DecidableEq, Repr

/-! ## Responses of the steps -/

def originAllowed (cors : Cors) (origin : Option Str) : Option Str :=
  origin.bind (fun origin =>
    if "*".toList ∈ cors.origins then some "*"
    else if origin ∈ cors.origins then some origin
    else none)

def trueValue : HeaderValue := ⟨Str.bytes "true", by decide⟩

def applyCors (cors : Cors) (origin : Option Str) (resp : Response) : Response :=
  match originAllowed cors origin with
  | none => resp
  | some allow =>
    let resp := resp.insertStr .accessControlAllowOrigin allow
    if cors.credentials then resp.insert .accessControlAllowCredentials trueValue else resp

def preflight (cors : Cors) (origin : Option Str) : Response :=
  let resp := applyCors cors origin (.new 204)
  if cors.methods = [] then resp
  else resp.insertStr .accessControlAllowMethods (List.intercalate ", " cors.methods)

def textPlain : HeaderValue := ⟨Str.bytes "text/plain; charset=utf-8", by decide⟩

/-- A status that is none becomes 403. -/
def blocked (status : Nat) : Response :=
  ((Response.new (if 100 ≤ status ∧ status < 1000 then status else 403)).insert .contentType textPlain).withBody
    (Str.bytes "forbidden")

def ratelimitLimit : HeaderName := ⟨"ratelimit-limit", by decide⟩

def ratelimitRemaining : HeaderName := ⟨"ratelimit-remaining", by decide⟩

def ratelimitReset : HeaderName := ⟨"ratelimit-reset", by decide⟩

def retryAfter : HeaderName := ⟨"retry-after", by decide⟩

def insertNum (resp : Response) (name : HeaderName) (value : Nat) : Response := resp.insertStr name (Nat.toDigits 10 value)

def rateLimited (outcome : RateOutcome) : Response :=
  let resp := insertNum (.new 429) ratelimitLimit outcome.limit
  let resp := insertNum resp ratelimitRemaining outcome.remaining
  let resp := insertNum resp ratelimitReset outcome.resetSecs
  let resp := insertNum resp retryAfter outcome.resetSecs
  resp.withBody (Str.bytes "rate limit exceeded")

/-! ## Requests -/

def normalizePath (rest : Str) : Str :=
  if rest = [] then "/" else if rest.head? = some '/' then rest else '/' :: rest

def rateKey (key : Str) (req : RequestView) : Str :=
  if key = "ip" then (req.clientIp.map (fun ip => ip.toCanonical.toText)).getD "unknown"
  else key ++ ":" ++ req.path

/-- What a step does to a request: it answers it or passes it on, and its limiter may count it. -/
def ingressStep (now : Nat) (mw : Mw) (buckets : Buckets) (req : RequestView) : Except Response RequestView × Buckets :=
  match mw with
  | .stripPrefix strip =>
    match req.path.stripPrefix strip with
    | some rest => (.ok { req with path := normalizePath rest }, buckets)
    | none => (.ok req, buckets)
  | .cors origins methods credentials =>
    if req.method.eqIgnoreAsciiCase "OPTIONS" ∧ req.origin.isSome then
      (.error (preflight ⟨origins, methods, credentials⟩ req.origin), buckets)
    else (.ok req, buckets)
  | .ip acl =>
    match req.clientIp.bind acl.check with
    | some block => (.error (blocked block.status), buckets)
    | none => (.ok req, buckets)
  | .waf engine =>
    match engine.inspect req.pathAndQuery with
    | some block => (.error (blocked block.status), buckets)
    | none => (.ok req, buckets)
  | .rateLimit limiter key =>
    match limiter.check now (rateKey key req) buckets with
    | (outcome, buckets) => (if outcome.allowed then .ok req else .error (rateLimited outcome), buckets)
  | .headers _ _ => (.ok req, buckets)

/-- What has become of a request after the steps. -/
structure Ingress where
  short : Option Response
  view : RequestView
  limiters : Nat → Buckets

def ingressFrom (clock : Nat → Nat) (i : Nat) (pipeline : List Mw) (limiters : Nat → Buckets) (req : RequestView) : Ingress :=
  match pipeline with
  | [] => ⟨none, req, limiters⟩
  | mw :: pipeline =>
    match ingressStep (clock i) mw (limiters i) req with
    | (.error resp, buckets) => ⟨some resp, req, Function.update limiters i buckets⟩
    | (.ok req, buckets) => ingressFrom clock (i + 1) pipeline (Function.update limiters i buckets) req

def ingress (clock : Nat → Nat) (pipeline : List Mw) (limiters : Nat → Buckets) (req : RequestView) : Ingress :=
  ingressFrom clock 0 pipeline limiters req

/-! ## Responses -/

def removeHeader (resp : Response) (name : Str) : Response :=
  match HeaderName.parse name with
  | some h => { resp with headers := resp.headers.remove h }
  | none => resp

def setHeader (resp : Response) (header : Str × Str) : Response :=
  match HeaderName.parse header.1 with
  | some h => resp.insertStr h header.2
  | none => resp

def egressStep (origin : Option Str) (mw : Mw) (resp : Response) : Response :=
  match mw with
  | .headers set remove => set.foldl setHeader (remove.foldl removeHeader resp)
  | .cors origins methods credentials => applyCors ⟨origins, methods, credentials⟩ origin resp
  | .stripPrefix _ | .rateLimit _ _ | .waf _ | .ip _ => resp

/-- The last step comes first. -/
def egress (pipeline : List Mw) (origin : Option Str) (resp : Response) : Response :=
  pipeline.foldr (egressStep origin) resp

/-! ## What the steps decide on the way out

Each step sets or removes some headers of a response and leaves the others alone. Where several steps decide on a header, the
first of the pipeline has the last word. -/

/-- The line that is set for a name: by the last setting of it whose value is one. -/
def setLine (set : List (Str × Str)) (name : HeaderName) : Option HeaderValue :=
  set.reverse.findSome? (fun header => if HeaderName.parse header.1 = some name then HeaderValue.fromStr header.2 else none)

/-- The lines of a name that a step leaves, if it decides on them. -/
def stepLines (origin : Option Str) (name : HeaderName) : Mw → Option (List HeaderValue)
  | .headers set remove =>
    ((setLine set name).map (fun v => [v])).or
      (if remove.any (fun n => HeaderName.parse n = some name) then some [] else none)
  | .cors origins methods credentials =>
    (originAllowed ⟨origins, methods, credentials⟩ origin).bind (fun allow =>
      if name = .accessControlAllowOrigin then (HeaderValue.fromStr allow).map (fun v => [v])
      else if name = .accessControlAllowCredentials ∧ credentials then some [trueValue]
      else none)
  | .stripPrefix _ | .rateLimit _ _ | .waf _ | .ip _ => none

/-- The lines of a name that the steps leave, if one of them decides on them. -/
def egressLines (pipeline : List Mw) (origin : Option Str) (name : HeaderName) : Option (List HeaderValue) :=
  pipeline.findSome? (stepLines origin name)

end Pulsate.Pipeline
