import Pulsate.Cache.Directives
import Pulsate.Cache.Timed
import Pulsate.Http.Serve
import Pulsate.Pipeline.Gate

/-!
# Responses that are served again

A response leaves the cache for another request than the one that it was made for. Here it is said which request that was.
-/

namespace Pulsate.Http

open Cache (Entry)
open Lib (run)
open Routing (CacheLayer Place Route)

/-- What the handler of a route answers a request that gets there. -/
def reply (gw : Gateway) (route : Route) (e : Exchange) : Response :=
  dispatch gw e route.handler (Pipeline.rewritten route.middleware e.request.path)

/-- What the route makes of it. -/
def made (gw : Gateway) (route : Route) (e : Exchange) : Response :=
  Pipeline.egress route.middleware e.request.origin (reply gw route e)

/-- The response that a route made, with or without a mark that it was not in the cache. -/
def Marked (fresh resp : Response) : Prop := resp = fresh ∨ ∃ mark, resp = fresh.insertStr xCache mark

/-- The steps of the route let the request through. -/
def LetThrough (state : State) (place : Place) (e : Exchange) : Prop :=
  (state.ingress place e).short = none

instance decidableLetThrough (state : State) (place : Place) (e : Exchange) : Decidable (LetThrough state place e) :=
  inferInstanceAs (Decidable (_ = none))

/-- Neither a store nor a handler has a part in what becomes of the request: the stores stay, and with other stores and in other
surroundings it would be sent the same. -/
structure Unreached (gw : Gateway) (state : State) (e : Exchange) : Prop where
  stores : (handle gw state e).2.stores = state.stores
  response : ∀ stores (other : Exchange), other.request = e.request → other.peer = e.peer → other.requestId = e.requestId →
    other.clock = e.clock → (handle gw ⟨stores, state.limiters⟩ other).1 = (handle gw state e).1

/-- The request comes to the store of its route, under this key. -/
structure Reaches (gw : Gateway) (state : State) (e : Exchange) (place : Place) (layer : CacheLayer) (key : Str) : Prop where
  route : gw.placeOf e.request = some place
  cache : place.route.cache = some layer
  through : LetThrough state place e
  allowed : e.request.allowsCache (layerConfig layer.config)
  under : e.request.key (layerConfig layer.config) = key

/-- The response to the request is taken from the entry. -/
structure AnsweredFrom (gw : Gateway) (state : State) (e : Exchange) (place : Place) (layer : CacheLayer) (key : Str)
    (entry : Entry) : Prop extends Reaches gw state e place layer key where
  visible : (state.stores layer.store).visible key = some entry
  servable : Cache.Servable e.lookupAt entry

/-- The request misses, and what the route makes for it is stored as this entry. -/
structure Leaves (gw : Gateway) (state : State) (e : Exchange) (place : Place) (layer : CacheLayer) (key : Str)
    (entry : Entry) : Prop extends Reaches gw state e place layer key where
  stored : ∃ store ttl, Cache.lookup e.lookupAt key (state.stores layer.store) = (.ok none, store) ∧
    (Cache.maybeStore (layerConfig layer.config) e.storeAt e.order key (made gw place.route e).status
      (made gw place.route e).headers (made gw place.route e).body store).1 ∧
    (layerConfig layer.config).cacheableTtl (made gw place.route e).status (made gw place.route e).headers = some ttl ∧
    entry = Cache.entryOf (layerConfig layer.config) e.storeAt (made gw place.route e).status
      (made gw place.route e).headers (made gw place.route e).body ttl

/-- The two requests come to the same route, both may use its cache under the same key, and what the route makes for the first
may be stored. -/
structure MayServe (gw : Gateway) (place : Place) (layer : CacheLayer) (first e : Exchange) : Prop where
  route : gw.placeOf first.request = some place
  allowed : first.request.allowsCache (layerConfig layer.config)
  allowed' : e.request.allowsCache (layerConfig layer.config)
  key : first.request.key (layerConfig layer.config) = e.request.key (layerConfig layer.config)
  cacheable : (layerConfig layer.config).cacheableTtl (made gw place.route first).status (made gw place.route first).headers ≠ none

/-! ## Authorised requests -/

def Request.authorization (req : Request) : List HeaderValue := req.headers.getAll .authorization

/-- The response may be shared although the request was authorised. -/
def MayShare (resp : Response) : Prop :=
  Cache.Carries "public" resp.headers ∨ Cache.Carries "must-revalidate" resp.headers ∨ Cache.Carries "s-maxage" resp.headers

/-! ## Allowed origins -/

/-- The response allows the origin that the step decides on for a request, and no other. -/
def Decided (cors : Pipeline.Cors) (req : Request) (resp : Response) : Prop :=
  (resp.headers.getAll .accessControlAllowOrigin).map HeaderValue.text = (Pipeline.originAllowed cors req.origin).toList

instance decidableDecided (cors : Pipeline.Cors) (req : Request) (resp : Response) : Decidable (Decided cors req resp) :=
  inferInstanceAs (Decidable (_ = _))

end Pulsate.Http
