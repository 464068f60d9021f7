import Pulsate.Http.Egress
import Pulsate.Http.Upstreams
import Pulsate.Proxy.Retry

/-!
# Answers that are passed on

What of an upstream's answer should reach the client, the record of its target and the cache.
-/

namespace Pulsate.Http

open Lib (run)
open Proxy (Forwarding Health Sent Upstream)
open Routing (Mw)

/-- Only an answer that has come to its end is passed on as an answer. One that breaks off is an error for the client and a failure
of its target, and leaves nothing in the stores. -/
structure PassesWhole (gw : Gateway) (plane : Plane) (v : Visit) (up : Upstream) (req : Forwarding) (health : Health) : Prop where
  whole : ∀ k answer, up.Ends v.wire req health k answer → (up.forward v.wire req health).result.status = answer.status →
    (up.forward v.wire req health).result.body = answer.chunks.flatten ∧ answer.clean
  refused : ∀ k answer, up.Ends v.wire req health k answer → answer.clean = false →
    ∀ resp, (serve gw plane v).1 = .ok resp → 400 ≤ resp.status
  charged : (up.forward v.wire req health).state.targets =
    (run up.record health ((up.forward v.wire req health).sent.map (Sent.wholeRecord up.retry))).targets
  unstored : ∀ k answer, up.Ends v.wire req health k answer → answer.clean = false → ∀ id key entry,
    ((serve gw plane v).2.state.stores id).visible key = some entry → (plane.state.stores id).visible key = some entry

/-- Lines of the name are to cross as they are: they are not meant for one hop only, no step of the route decides on them, and the
gateway sets none itself. -/
structure Crosses (gw : Gateway) (requestId : Str) (pipeline : List Mw) (origin : Option Str) (headers : HeaderMap)
    (name : HeaderName) : Prop where
  free : ¬ Proxy.Held headers name
  undecided : Pipeline.egressLines pipeline origin name = none
  unstamped : gw.stamps requestId name = false
  unmarked : name ≠ xCache

end Pulsate.Http
