import Pulsate.Http.Handlers
import Pulsate.Http.Request
import Pulsate.Router.Place

/-!
# Serving requests (`pulsate-http::serve`)

One request from its head to the response that is sent. The stores of the caches and the buckets of the limiters outlast it.
What a request reads of the clock and finds in its surroundings comes with it.
-/

namespace Pulsate.Http

open Cache (Hit MemoryStore Panic)
open Conf (Handler)
open Lib (Iteration)
open Pipeline (RequestView)
open Routing (Place Route)

structure Gateway extends Cli.Gateway where
  altSvc : Option Str
  maxRequestBodyBytes : Nat

/-- The stores by their numbers, and the buckets of each limiter under the place of its route and the number of its step. -/
structure State where
  stores : Nat → MemoryStore
  limiters : Nat × Nat → Nat → Waf.Buckets

def State.new : State := ⟨fun _ => .new, fun _ _ => ∅⟩

/-- A request and what it meets. -/
structure Exchange where
  request : Request
  peer : IpAddr
  /-- All of the body, or nothing if it breaks off. -/
  body : Option (List UInt8)
  requestId : Str
  /-- When each step of the pipeline looks at the clock. -/
  clock : Nat → Nat
  lookupAt : Nat
  storeAt : Nat
  order : Iteration Str Cache.Entry
  world : World

/-! ## Responses of the server -/

def xCache : HeaderName := ⟨"x-cache", by decide⟩

def age : HeaderName := ⟨"age", by decide⟩

def xRequestId : HeaderName := ⟨"x-request-id", by decide⟩

def altSvcName : HeaderName := ⟨"alt-svc", by decide⟩

def notFound : Response :=
  ((Response.new 404).insert .contentType Pipeline.textPlain).withBody (Str.bytes "no route matched")

def payloadTooLarge : Response :=
  ((Response.new 413).insert .contentType Pipeline.textPlain).withBody (Str.bytes "request body too large")

/-- `to_hyper`: the lines are set one after another. -/
def toHyper (resp : Response) : Response :=
  { resp with headers := resp.headers.foldl (fun headers line => HeaderMap.insert headers line.1 line.2) [] }

def finalize (gw : Gateway) (requestId : Str) (resp : Response) : Response :=
  let resp := resp.insertStr xRequestId requestId
  toHyper (match gw.altSvc with
    | some alt => resp.insertStr altSvcName alt
    | none => resp)

/-! ## Handlers -/

/-- The body as far as it may go. -/
def collect (gw : Gateway) (e : Exchange) : Option (List UInt8) := e.body.filter (·.length ≤ gw.maxRequestBodyBytes)

def proxy (gw : Gateway) (world : World) (handler : Handler) (req : Forwarded) : Response :=
  match gw.pool handler with
  | none => (Response.new 502).withBody (Str.bytes "upstream not found")
  | some up => world.forward up req

/-- What the handler of a route makes of a request, whose path the steps may have rewritten. -/
def dispatch (gw : Gateway) (e : Exchange) (handler : Handler) (path : Str) : Response :=
  match handler with
  | .proxy _ _ =>
    match collect gw e with
    | none => payloadTooLarge
    | some body =>
      let pathAndQuery := match e.request.query with
        | some q => path ++ '?' :: q
        | none => path
      proxy gw e.world handler ⟨e.request.method, pathAndQuery, e.request.headers, body, e.peer, e.request.host⟩
  | other => execute e.world other path

/-! ## Caches -/

/-- The settings of a layer as the cache takes them. -/
def layerConfig (c : Routing.CacheConfig) : Cache.CacheConfig where
  defaultTtl := .fromSecs (UInt64.ofNat c.defaultTtlSecs)
  methods := c.methods
  vary := c.vary
  staleWhileRevalidate := .fromSecs (UInt64.ofNat c.staleWhileRevalidateSecs)
  maxEntries := c.maxEntries
  maxBodyBytes := c.maxBodyBytes
  maxTotalBytes := c.maxTotalBytes

/-- A header of an entry is set again, if its name and value are still such. -/
def restoreHeader (resp : Response) (header : Str × Str) : Response :=
  match HeaderName.parse header.1 with
  | some name => resp.insertStr name header.2
  | none => resp

def hitResponse (hit : Hit) : Response :=
  let resp := hit.headers.foldl restoreHeader (.new hit.status)
  let resp := resp.insertStr age (Nat.toDigits 10 hit.ageSecs)
  let resp := resp.insertStr xCache (if hit.freshness = .stale then "STALE" else "HIT")
  resp.withBody hit.body

def cacheLookup (config : Cache.CacheConfig) (now : Nat) (req : Request) (store : MemoryStore) :
    Except Panic (Option Response) × MemoryStore :=
  if req.allowsCache config then
    match Cache.lookup now (req.key config) store with
    | (result, store) => (result.map (Option.map hitResponse), store)
  else (.ok none, store)

def cacheStore (config : Cache.CacheConfig) (now : Nat) (order : Iteration Str Cache.Entry) (req : Request) (resp : Response)
    (store : MemoryStore) : Response × MemoryStore :=
  if req.allowsCache config then
    match Cache.maybeStore config now order (req.key config) resp.status resp.headers resp.body store with
    | (stored, store) => (resp.insertStr xCache (if stored then "MISS" else "BYPASS"), store)
  else (resp.insertStr xCache "BYPASS", store)

/-! ## A request from start to end -/

/-- `percent_decode`, which is that of the firewall. -/
def percentDecode (s : Str) : Str := Waf.percentDecode s

def requestView (e : Exchange) : RequestView :=
  ⟨e.request.method, e.request.path, percentDecode e.request.target, e.request.origin, some e.peer⟩

/-- The route of a request. -/
def Gateway.placeOf (gw : Gateway) (req : Request) : Option Place := gw.router.place req.host req.path req.method

/-- What the steps of the route make of a request. -/
def State.ingress (state : State) (place : Place) (e : Exchange) : Pipeline.Ingress :=
  Pipeline.ingress e.clock place.route.middleware (state.limiters (place.site, place.index)) (requestView e)

section Drive

variable {σ : Type}

/-- The response of a route to a request that its steps have let through: from its store, or from its handler, which may work on a
state of its own. -/
def answer (route : Route) (e : Exchange) (handler : σ → Response × σ) (stores : Nat → MemoryStore) (s : σ) :
    Except Panic Response × (Nat → MemoryStore) × σ :=
  match route.cache with
  | none =>
    match handler s with
    | (resp, s) => (.ok (Pipeline.egress route.middleware e.request.origin resp), stores, s)
  | some layer =>
    let config := layerConfig layer.config
    match cacheLookup config e.lookupAt e.request (stores layer.store) with
    | (.error panic, store) => (.error panic, Function.update stores layer.store store, s)
    | (.ok (some hit), store) => (.ok hit, Function.update stores layer.store store, s)
    | (.ok none, store) =>
      match handler s with
      | (resp, s) =>
        match cacheStore config e.storeAt e.order e.request (Pipeline.egress route.middleware e.request.origin resp) store with
        | (resp, store) => (.ok resp, Function.update stores layer.store store, s)

/-- What becomes of a request before the last headers are set. The drivers of all protocols take it through these stages, and
differ in how the body comes to the handler and in how the response leaves. -/
def drive (gw : Gateway) (handler : Route → Str → σ → Response × σ) (state : State) (s : σ) (e : Exchange) :
    Except Panic Response × State × σ :=
  match gw.placeOf e.request with
  | none => (.ok notFound, state, s)
  | some place =>
    let ingress := state.ingress place e
    let limiters := Function.update state.limiters (place.site, place.index) ingress.limiters
    match ingress.short with
    | some short => (.ok short, ⟨state.stores, limiters⟩, s)
    | none =>
      match answer place.route e (handler place.route ingress.view.path) state.stores s with
      | (resp, stores, s) => (resp, ⟨stores, limiters⟩, s)

end Drive

/-- What becomes of a request whose surroundings answer for the pools: the response that is sent, unless serving it panics. -/
def handle (gw : Gateway) (state : State) (e : Exchange) : Except Panic Response × State :=
  match drive gw (fun route path _ => (dispatch gw e route.handler path, ())) state () e with
  | (resp, state, _) => (resp.map (finalize gw e.requestId), state)

/-- The state after a request. -/
def step (gw : Gateway) (state : State) (e : Exchange) : State := (handle gw state e).2

end Pulsate.Http
