import Pulsate.Http.Theorems
import Pulsate.Http3.Lemmas

/-!
# One request over each protocol
-/

namespace Pulsate.Http3

open Http (Gateway Plane Visit)
open Routing (Route)

/-- A request comes to the same over HTTP/3 as over the other protocols exactly if its body is not too large, or if its route does no
more with it than to say that it is. -/
theorem sameOver_iff (gw : Gateway) (plane : Plane) (v : Visit) (requestId : Str) (chunks : List (List UInt8)) :
    SameOver gw plane v requestId chunks ↔
      chunks.flatten.length ≤ gw.maxRequestBodyBytes ∨ ∃ place, BareRefusal gw plane (withBody v chunks.flatten) place := by
  rcases Nat.lt_or_ge gw.maxRequestBodyBytes chunks.flatten.length with hlt | hle
  · rw [sameOver_iff_of_lt plane v requestId hlt, or_iff_right (Nat.not_le.mpr hlt)]
  · exact iff_of_true (sameOver_of_le plane v requestId hle) (.inl hle)

/-- A route that answers without a look at the body. -/
def pongRoute : Route where
  kind := .Prefix
  pattern := "/*"
  method := none
  middleware := []
  cache := none
  handler := .respond 200 "pong"

def pongGateway : Gateway where
  router := ⟨[⟨["a.test"], [pongRoute]⟩]⟩
  upstreams := ∅
  altSvc := none
  maxRequestBodyBytes := 1

def pongVisit : Visit where
  exchange := Http.visit [] 0
  wire := ⟨fun _ => 0, fun _ => true, fun _ _ => 0, fun _ => 0, fun _ => .failed false⟩

/-- A body that is too large is refused over HTTP/3 where the other protocols do not read it. -/
theorem refused_unread :
    (Http.serve pongGateway .new (withBody pongVisit [1, 2])).1.toOption.map (fun resp => (resp.status, resp.body)) =
      some (200, Str.bytes "pong") ∧
    (handleRequest pongGateway .new (withId pongVisit "2") [[1], [2]]).1.toOption.map (fun resp => (resp.status, resp.body)) =
      some (413, Str.bytes "request body too large") ∧
    ¬ SameOver pongGateway .new pongVisit "2" [[1], [2]] := by
  refine ⟨by decide, by decide, fun h => ?_⟩
  exact absurd (map_status_of_agreeOn h.responses) (by decide)

end Pulsate.Http3
