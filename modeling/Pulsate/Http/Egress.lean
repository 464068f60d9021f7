import Pulsate.Http.Sharing

/-!
# Responses on the way out

Whatever a request of a route is answered with, the steps of the route should have their say on it.
-/

namespace Pulsate.Http

open Cache (Entry)
open Routing (CacheLayer Mw Place)

/-- Two header maps are the same if they have the same lines of every name. -/
structure Response.Same (resp resp' : Response) : Prop where
  status : resp.status = resp'.status
  body : resp.body = resp'.body
  lines : ∀ name, resp.headers.getAll name = resp'.headers.getAll name

/-- The headers that every response gets at the end. -/
def Gateway.stamp (gw : Gateway) (requestId : Str) (resp : Response) : Response :=
  let resp := resp.insertStr xRequestId requestId
  match gw.altSvc with
  | some alt => resp.insertStr altSvcName alt
  | none => resp

/-- The header is one of those. -/
def Gateway.stamps (gw : Gateway) (requestId : Str) (name : HeaderName) : Bool :=
  (name = xRequestId && (HeaderValue.fromStr requestId).isSome) ||
    (name = altSvcName && gw.altSvc.any (fun alt => (HeaderValue.fromStr alt).isSome))

/-- What the steps decide for this origin stands on the response already. -/
def Stands (gw : Gateway) (requestId : Str) (pipeline : List Mw) (origin : Option Str) (resp : Response) : Prop :=
  ∀ name lines, gw.stamps requestId name = false → Pipeline.egressLines pipeline origin name = some lines →
    (resp.headers.getAll name).getLast?.toList = lines

/-- The response that is sent has gone through the steps, whether a step answers the request, the cache or the handler. -/
structure EgressRuns (gw : Gateway) (state : State) (e : Exchange) (place : Place) : Prop where
  short : ∀ short resp, (state.ingress place e).short = some short → (handle gw state e).1 = .ok resp →
    resp.Same (finalize gw e.requestId (Pipeline.egress place.route.middleware e.request.origin short))
  hit : ∀ layer key entry resp, AnsweredFrom gw state e place layer key entry → (handle gw state e).1 = .ok resp →
    resp.Same (finalize gw e.requestId
      (Pipeline.egress place.route.middleware e.request.origin (hitResponse (Cache.hitOf e.lookupAt entry))))
  fresh : LetThrough state place e → (∀ layer key entry, ¬ AnsweredFrom gw state e place layer key entry) →
    ∀ resp, (handle gw state e).1 = .ok resp →
      ∃ marked, Marked (Pipeline.egress place.route.middleware e.request.origin (reply gw place.route e)) marked ∧
        resp.Same (finalize gw e.requestId marked)

end Pulsate.Http
