import Pulsate.Http.Egress
import Pulsate.Http.Upstreams

/-!
# The HTTP/3 driver (`pulsate-http3`)

The body of a request is read to its end before anything else is done with it. The stages are those of the other protocols.
-/

namespace Pulsate.Http3

open Cache (Panic)
open Conf (Handler)
open Http (Gateway HeaderMap HeaderName HeaderValue LetThrough Plane Response Visit drive forwardedOf payloadTooLarge proxyOn
  xRequestId)
open Proxy (Health)
open Routing (Place Route)

def connectionSpecific : List Str := ["connection", "keep-alive", "proxy-connection", "transfer-encoding", "upgrade"]

def contentLength : HeaderName := ⟨"content-length", by decide⟩

/-- The head and the body that are sent for a response. -/
def translate (resp : Response) : Response :=
  let headers : HeaderMap := (resp.headers.filter (fun line => line.1.text ∉ connectionSpecific)).foldl
    (fun out line => HeaderMap.insert out line.1 line.2) []
  let head : Response := ⟨resp.status, headers, resp.body⟩
  if headers.containsKey contentLength then head else head.insertStr contentLength (Nat.toDigits 10 resp.body.length)

/-- The chunks of a body are put together as they come, unless they become too much. -/
def receive (maxBody : Nat) (body : List UInt8) : List (List UInt8) → Option (List UInt8)
  | [] => some body
  | data :: chunks => if maxBody < body.length + data.length then none else receive maxBody (body ++ data) chunks

def dispatchOn (gw : Gateway) (v : Visit) (body : List UInt8) (handler : Handler) (path : Str) (pools : Str → Health) :
    Response × (Str → Health) :=
  match handler with
  | .proxy _ _ => proxyOn gw v.wire handler (forwardedOf v.exchange path body) pools
  | other => (Http.execute v.exchange.world other path, pools)

def dispatch (gw : Gateway) (plane : Plane) (v : Visit) (body : List UInt8) : Except Panic Response × Plane :=
  match drive gw (fun route => dispatchOn gw v body route.handler) plane.state plane.pools v.exchange with
  | (resp, state, pools) => (resp.map (gw.stamp v.exchange.requestId), ⟨state, pools⟩)

/-- `handle_request`, for a body that comes in these chunks. -/
def handleRequest (gw : Gateway) (plane : Plane) (v : Visit) (chunks : List (List UInt8)) : Except Panic Response × Plane :=
  match receive gw.maxRequestBodyBytes [] chunks with
  | none => (.ok (translate payloadTooLarge), plane)
  | some body =>
    match dispatch gw plane v body with
    | (resp, plane) => (resp.map translate, plane)

/-! ## Agreement of the protocols

One request over HTTP/3 and over the other protocols. -/

/-- The name is free to differ between the protocols. -/
def Own (name : HeaderName) : Prop := name.text ∈ connectionSpecific ∨ name = contentLength ∨ name = xRequestId

instance decidableOwn : DecidablePred Own :=
  fun name => inferInstanceAs (Decidable (name.text ∈ connectionSpecific ∨ name = contentLength ∨ name = xRequestId))

/-- The responses are the same, but for what is a protocol's own. -/
structure Agree (resp resp' : Response) : Prop where
  status : resp.status = resp'.status
  body : resp.body = resp'.body
  lines : ∀ name, ¬ Own name → resp.headers.getAll name = resp'.headers.getAll name

/-- Both give such responses, or both panic. -/
def AgreeOn : Except Panic Response → Except Panic Response → Prop
  | .ok resp, .ok resp' => Agree resp resp'
  | .error panic, .error panic' => panic = panic'
  | _, _ => False

/-- The same visit with this body. -/
def withBody (v : Visit) (body : List UInt8) : Visit := { v with exchange := { v.exchange with body := some body } }

/-- The same visit under another number. -/
def withId (v : Visit) (requestId : Str) : Visit := { v with exchange := { v.exchange with requestId } }

/-- A visit comes to the same over both protocols, for the client and for what outlasts it. -/
structure SameOver (gw : Gateway) (plane : Plane) (v : Visit) (requestId : Str) (chunks : List (List UInt8)) : Prop where
  responses : AgreeOn (Http.serve gw plane (withBody v chunks.flatten)).1 (handleRequest gw plane (withId v requestId) chunks).1
  plane : (Http.serve gw plane (withBody v chunks.flatten)).2 = (handleRequest gw plane (withId v requestId) chunks).2

/-- What the handler of a route answers to a visit whose body is not passed on. -/
def handlerAnswer (v : Visit) (route : Route) : Response :=
  match route.handler with
  | .proxy _ _ => payloadTooLarge
  | other => Http.execute v.exchange.world other (Pipeline.rewritten route.middleware v.exchange.request.path)

/-- The route has no cache, its steps let the visit through and do not count it, its handler answers that the body is too large,
and neither the steps nor the gateway set or remove a header of that answer. -/
structure BareRefusal (gw : Gateway) (plane : Plane) (v : Visit) (place : Place) : Prop where
  route : gw.placeOf v.exchange.request = some place
  uncached : place.route.cache = none
  through : LetThrough plane.state place v.exchange
  uncounted : ¬ Pipeline.Counted v.exchange.clock place.route.middleware (plane.state.limiters (place.site, place.index))
    (Http.requestView v.exchange)
  unadvertised : ∀ alt, gw.altSvc = some alt → HeaderValue.fromStr alt = none
  status : (handlerAnswer v place.route).status = payloadTooLarge.status
  body : (handlerAnswer v place.route).body = payloadTooLarge.body
  lines : ∀ name, ¬ Own name →
    ((Pipeline.egressLines place.route.middleware v.exchange.request.origin name).getD
      ((handlerAnswer v place.route).headers.getAll name)).getLast?.toList = payloadTooLarge.headers.getAll name

end Pulsate.Http3
