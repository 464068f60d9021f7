import Pulsate.Http.Sharing
import Pulsate.Proxy.Forward

/-!
# Serving with pools

The health of the pools goes along with the stores and the limiters. A pool that a route names is kept under that name; one for a
single address is new with every request.
-/

namespace Pulsate.Http

open Cache (Panic)
open Conf (Handler)
open Proxy (Forwarding Health Upstream Wire)
open Routing (Place)

/-- All that outlasts a request. -/
structure Plane where
  state : State
  pools : Str → Health

def Plane.new : Plane := ⟨.new, fun _ => .new⟩

/-- A request, and what is met when it is forwarded. Of its surroundings only the files count. -/
structure Visit where
  exchange : Exchange
  wire : Wire

/-! ## Pools -/

def Forwarded.forwarding (req : Forwarded) : Forwarding :=
  ⟨req.method, req.pathAndQuery, req.headers, req.body, some req.peer, req.host⟩

/-- The health of the pool that a handler forwards to. -/
def poolHealth (handler : Handler) (pools : Str → Health) : Health :=
  match handler with
  | .proxy (some name) _ => pools name
  | _ => .new

def setPoolHealth (handler : Handler) (health : Health) (pools : Str → Health) : Str → Health :=
  match handler with
  | .proxy (some name) _ => Function.update pools name health
  | _ => pools

/-- `proxy`. -/
def proxyOn (gw : Gateway) (wire : Wire) (handler : Handler) (req : Forwarded) (pools : Str → Health) :
    Response × (Str → Health) :=
  match gw.pool handler with
  | none => ((Response.new 502).withBody (Str.bytes "upstream not found"), pools)
  | some up =>
    let tried := up.forward wire req.forwarding (poolHealth handler pools)
    (tried.result, setPoolHealth handler tried.state pools)

/-- What is forwarded of a request, whose path the steps may have rewritten. -/
def forwardedOf (e : Exchange) (path : Str) (body : List UInt8) : Forwarded :=
  let pathAndQuery := match e.request.query with
    | some q => path ++ '?' :: q
    | none => path
  ⟨e.request.method, pathAndQuery, e.request.headers, body, e.peer, e.request.host⟩

/-! ## HTTP/1 and HTTP/2 -/

def dispatchOn (gw : Gateway) (v : Visit) (handler : Handler) (path : Str) (pools : Str → Health) : Response × (Str → Health) :=
  match handler with
  | .proxy _ _ =>
    match collect gw v.exchange with
    | none => (payloadTooLarge, pools)
    | some body => proxyOn gw v.wire handler (forwardedOf v.exchange path body) pools
  | other => (execute v.exchange.world other path, pools)

/-- `handle`, pools included. -/
def serve (gw : Gateway) (plane : Plane) (v : Visit) : Except Panic Response × Plane :=
  match drive gw (fun route => dispatchOn gw v route.handler) plane.state plane.pools v.exchange with
  | (resp, state, pools) => (resp.map (finalize gw v.exchange.requestId), ⟨state, pools⟩)

/-! ## What a visit comes to -/

/-- The exchange as it is without the pools: each answers as it does in this state. -/
def Visit.meets (gw : Gateway) (plane : Plane) (v : Visit) : Exchange :=
  let health := match gw.placeOf v.exchange.request with
    | some place => poolHealth place.route.handler plane.pools
    | none => .new
  { v.exchange with world := ⟨v.exchange.world.files, fun up req => (up.forward v.wire req.forwarding health).result⟩ }

/-- The visit is forwarded: this request to this pool, in this state. -/
structure Forwards (gw : Gateway) (plane : Plane) (v : Visit) (place : Place) (up : Upstream) (req : Forwarding)
    (health : Health) : Prop where
  route : gw.placeOf v.exchange.request = some place
  through : LetThrough plane.state place v.exchange
  missed : ∀ layer, place.route.cache = some layer → (cacheLookup (layerConfig layer.config) v.exchange.lookupAt
    v.exchange.request (plane.state.stores layer.store)).1 = .ok none
  pool : gw.pool place.route.handler = some up
  health : health = poolHealth place.route.handler plane.pools
  request : ∃ body, collect gw v.exchange = some body ∧
    req = (forwardedOf v.exchange (Pipeline.rewritten place.route.middleware v.exchange.request.path) body).forwarding

/-! ## Times -/

/-- The clock is below 2 ^ 62 seconds. -/
structure Visit.Early (v : Visit) : Prop where
  lookup : v.exchange.lookupAt < 2 ^ 62 * 10 ^ 9
  records : ∀ k, v.wire.recordAt k < 2 ^ 62 * 10 ^ 9

/-- A sum of times overflows while a visit is served. -/
inductive Overflows (gw : Gateway) (plane : Plane) (v : Visit) : Prop
  | lookup (h : (serve gw plane v).1 = .error .overflow)
  | record {place : Place} {up : Upstream} {req : Forwarding} {health before : Health} {k : Nat}
      (hforwards : Forwards gw plane v place up req health) (hk : k < max up.retry.attempts 1)
      (hbefore : Lib.before (up.attempt v.wire req) 0 k health = some before) (h : up.RecordOverflows v.wire req k before)

end Pulsate.Http
