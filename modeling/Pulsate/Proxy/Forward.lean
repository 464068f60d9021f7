import Pulsate.Lib.Tries
import Pulsate.Pipeline.Pipeline
import Pulsate.Proxy.Pool
import Pulsate.Cache.Directives

/-!
# Forwarding a request (`pulsate-proxy::forward`)

A request is sent to one target after another until one gives an answer that can be passed on. How each request ends, and what
the clock shows, come from outside.
-/

namespace Pulsate.Proxy

open Http (HeaderMap HeaderName HeaderValue Response)
open Lib (Try Tried)

/-! ## Responses of the proxy -/

/-- The codes of `pulsate-core` that the proxy answers with. -/
inductive Code
  | connectTimeout
  | noHealthy
  | retryExhausted
  | protocolError
  deriving DecidableEq, Repr

namespace Code

def text : Code → Str
  | connectTimeout => "PLS-PRX-0002"
  | noHealthy => "PLS-PRX-0003"
  | retryExhausted => "PLS-PRX-0006"
  | protocolError => "PLS-PRX-0007"

def title : Code → Str
  | connectTimeout => "Upstream connect timeout"
  | noHealthy => "No healthy upstream target"
  | retryExhausted => "Retry budget exhausted"
  | protocolError => "Upstream protocol error"

def httpStatus : Code → Nat
  | connectTimeout => 504
  | noHealthy => 503
  | retryExhausted => 502
  | protocolError => 502

end Code

def errorResponse (code : Code) : Response :=
  ((Response.new code.httpStatus).insert .contentType Pipeline.textPlain).withBody (Str.bytes (code.text ++ ": " ++ code.title))

/-! ## Headers -/

def hopByHop : List Str :=
  ["connection", "keep-alive", "proxy-authenticate", "proxy-authorization", "te", "trailers", "transfer-encoding", "upgrade",
    "host", "content-length"]

def connection : HeaderName := ⟨"connection", by decide⟩

def via : HeaderName := ⟨"via", by decide⟩

def xForwardedFor : HeaderName := ⟨"x-forwarded-for", by decide⟩

def xForwardedHost : HeaderName := ⟨"x-forwarded-host", by decide⟩

def xForwardedProto : HeaderName := ⟨"x-forwarded-proto", by decide⟩

/-- The names that a `Connection` line lists. -/
def connectionTokens (conn : Str) : List Str :=
  ((conn.splitOn ',').map (fun token => Str.toAsciiLowercase (Str.trim token))).filter (· ≠ [])

def connectionStripSet (headers : HeaderMap) : List Str :=
  hopByHop ++ ((headers.getStr connection).map connectionTokens).getD []

/-- The lines that are not stripped are set one after another, in the new request as in the new response. -/
def copyHeaders (headers : HeaderMap) : HeaderMap :=
  (headers.filter (fun line => line.1.text ∉ connectionStripSet headers)).foldl
    (fun out line => out.insert line.1 line.2) []

def httpValue : HeaderValue := ⟨Str.bytes "http", by decide⟩

def viaValue : HeaderValue := ⟨Str.bytes "1.1 pulsate", by decide⟩

/-- The header is set if the text can be a value. -/
def insertValid (headers : HeaderMap) (name : HeaderName) (value : Str) : HeaderMap :=
  match HeaderValue.fromStr value with
  | some v => headers.insert name v
  | none => headers

/-- The addresses that a request has come from, as far as the first line tells, and the last one. -/
def forwardedFor (orig : HeaderMap) (ip : IpAddr) : Str :=
  match orig.getStr xForwardedFor with
  | some existing => existing ++ ", " ++ ip.toText
  | none => ip.toText

def applyForwarded (out orig : HeaderMap) (clientIp : Option IpAddr) (origHost : Str) : HeaderMap :=
  let out := match clientIp with
    | some ip => insertValid out xForwardedFor (forwardedFor orig ip)
    | none => out
  let out := insertValid out xForwardedHost origHost
  (out.insert xForwardedProto httpValue).insert via viaValue

/-! ## Requests and answers -/

/-- What is to be forwarded. -/
structure Forwarding where
  method : Str
  pathAndQuery : Str
  headers : HeaderMap
  body : List UInt8
  clientIp : Option IpAddr
  origHost : Str
  deriving DecidableEq, Repr

/-- A request as it is sent to a target. -/
structure Outgoing where
  method : Str
  uri : Str
  headers : HeaderMap
  body : List UInt8
  deriving DecidableEq, Repr

/-- The headers of the request that is sent. -/
def Forwarding.outHeaders (req : Forwarding) : HeaderMap :=
  applyForwarded (copyHeaders req.headers) req.headers req.clientIp req.origHost

/-- `build_request`, where `parses` tells which texts are URIs. -/
def buildRequest (parses : Str → Bool) (req : Forwarding) (base : Str) : Option Outgoing :=
  if parses (base ++ req.pathAndQuery) then
    some ⟨req.method, base ++ req.pathAndQuery, req.outHeaders, req.body⟩
  else none

/-- An answer of a target. Its body comes in chunks and ends as it should, or breaks off. -/
structure Answer where
  status : Nat
  headers : HeaderMap
  chunks : List (List UInt8)
  clean : Bool
  deriving DecidableEq, Repr

/-- How a request ends: with an answer, or with an error, before a connection stands or after that. -/
inductive Outcome
  | answered (answer : Answer)
  | failed (connected : Bool)
  deriving DecidableEq, Repr

/-- A body that breaks off becomes an empty one. -/
def normalizeResponse (answer : Answer) : Response :=
  ⟨answer.status, copyHeaders answer.headers, if answer.clean then answer.chunks.flatten else []⟩

/-! ## Tries -/

/-- What a call meets: how each request ends, and when each try looks at each target and makes its record. -/
structure Wire where
  hash : Option IpAddr → UInt64
  parses : Str → Bool
  pickAt : Nat → Nat → Nat
  recordAt : Nat → Nat
  outcome : Nat → Outcome

/-- A request that has been sent, and how it ended. -/
structure Sent where
  target : Nat
  request : Outgoing
  outcome : Outcome
  /-- When that is recorded. -/
  now : Nat
  deriving DecidableEq, Repr

namespace Upstream

variable (up : Upstream)

/-- A target is picked and a request made for it. -/
def choose (wire : Wire) (req : Forwarding) (k : Nat) (health : Health) : Except Response (Nat × Outgoing) × Health :=
  match up.pick wire.hash req.clientIp (wire.pickAt k) health with
  | (none, health) => (.error (errorResponse .noHealthy), health)
  | (some i, health) =>
    match up.targetUrl i with
    | none => (.error (errorResponse .noHealthy), health)
    | some base =>
      match buildRequest wire.parses req base with
      | none => (.error (errorResponse .protocolError), health)
      | some request => (.ok (i, request), health)

/-- What follows when a request has ended. -/
def settle (sent : Sent) (health : Health) : Try Health Sent Response :=
  match sent.outcome with
  | .answered answer =>
    if answer.status ∈ up.retry.retryOnStatus then .again sent (up.recordFailure sent.now sent.target health)
    else .final sent (normalizeResponse answer) (up.recordSuccess sent.target health)
  | .failed _ =>
    if up.retry.onConnectError then .again sent (up.recordFailure sent.now sent.target health)
    else .final sent (errorResponse .connectTimeout) (up.recordFailure sent.now sent.target health)

def attempt (wire : Wire) (req : Forwarding) (k : Nat) (health : Health) : Try Health Sent Response :=
  match up.choose wire req k health with
  | (.error resp, health) => .refused resp health
  | (.ok (i, request), health) =>
    up.settle ⟨i, request, wire.outcome k, wire.recordAt k⟩ (up.inflightDec i (up.inflightInc i health))

/-- `forward`, if nothing else happens to the pool meanwhile. -/
def forward (wire : Wire) (req : Forwarding) (health : Health) : Tried Health Sent Response :=
  Lib.tries (up.attempt wire req) (errorResponse .retryExhausted) (max up.retry.attempts 1) 0 health

/-- The outcome is recorded as a failure. -/
def fails : Outcome → Bool
  | .answered answer => answer.status ∈ up.retry.retryOnStatus
  | .failed _ => true

/-- The record of a try opens the breaker, until a time that an `Instant` does not reach. -/
def RecordOverflows (wire : Wire) (req : Forwarding) (k : Nat) (health : Health) : Prop :=
  ∃ i request, (up.choose wire req k health).1 = .ok (i, request) ∧ up.fails (wire.outcome k) ∧
    up.breaker.consecutiveFailures ≤ (health.targets i).consecutiveFailures + 1 ∧
    instantEnd ≤ wire.recordAt k + up.breaker.openFor.nanos

end Upstream

/-! ## What may cross a hop

The names that the `Connection` lines of a message list are read here on every line, whatever else the line holds. -/

/-- The line lists the name, in whatever case. -/
def Nominates (line : HeaderValue) (name : HeaderName) : Prop :=
  ∃ item ∈ Cache.items line, Str.toAsciiLowercase item = name.text

/-- Some `Connection` line lists the name. -/
def Nominated (headers : HeaderMap) (name : HeaderName) : Prop := ∃ line ∈ headers.getAll connection, Nominates line name

/-- The first `Connection` line lists the name, and that line is a string. -/
def ShowsNominated (headers : HeaderMap) (name : HeaderName) : Prop :=
  ∃ line, headers.get connection = some line ∧ line.isVisible ∧ Nominates line name

/-- Lines of the name are meant for this hop only. -/
def Held (headers : HeaderMap) (name : HeaderName) : Prop := name.text ∈ hopByHop ∨ Nominated headers name

/-- The header is one that is set on the request here. -/
def Forwarding.sets (req : Forwarding) (name : HeaderName) : Bool :=
  name = via || name = xForwardedProto || (name = xForwardedHost && (HeaderValue.fromStr req.origHost).isSome) ||
    (name = xForwardedFor && req.clientIp.any (fun ip => (HeaderValue.fromStr (forwardedFor req.headers ip)).isSome))

/-- Where names that are meant for one hop are listed on later `Connection` lines, or on a line that is not a string, there are no
lines of theirs. -/
def ShowsAll (headers : HeaderMap) (name : HeaderName) : Prop :=
  Nominated headers name → name.text ∉ hopByHop → headers.getAll name ≠ [] → ShowsNominated headers name

/-- The addresses that the lines list, in order. -/
def forwardedItems (headers : HeaderMap) : List Str := (headers.getAll xForwardedFor).flatMap Cache.items

/-- All addresses are on the first line, and that line is a string unless it lists none. -/
structure ListsFirst (headers : HeaderMap) : Prop where
  rest : ∀ line ∈ (headers.getAll xForwardedFor).tail, Cache.items line = []
  first : ∀ line, headers.get xForwardedFor = some line → line.isVisible ∨ Cache.items line = []

end Pulsate.Proxy
