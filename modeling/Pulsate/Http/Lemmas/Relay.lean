import Pulsate.Http.Lemmas.Egress
import Pulsate.Http.Lemmas.Upstreams
import Pulsate.Http.Relay
import Pulsate.Proxy.Lemmas.Addresses
import Pulsate.Proxy.Lemmas.Forward

/-!
# Lemmas about answers that are passed on
-/

namespace Pulsate.Http

open List Option
open Lib (run)
open Proxy (Answer Forwarding Health Sent Upstream)
open Routing (CacheLayer Mw Place)

variable {gw : Gateway} {plane : Plane} {v : Visit} {place : Place} {up : Upstream} {req : Forwarding} {health : Health}
  {answer : Answer} {name : HeaderName} {requestId : Str} {pipeline : List Mw} {origin : Option Str} {k : Nat}

/-! ## Records -/

theorem map_wholeRecord (h : ∀ k answer, up.Ends v.wire req health k answer → answer.clean) :
    (up.forward v.wire req health).sent.map (Sent.wholeRecord up.retry) =
      (up.forward v.wire req health).sent.map (Sent.record up.retry) := by
  refine map_congr_left (fun sent hmem => ?_)
  obtain ⟨k, hsent⟩ := mem_iff_getElem?.mp hmem
  unfold Sent.wholeRecord Sent.record
  cases houtcome : sent.outcome with
  | failed connected => simp [Proxy.RetryPolicy.fails]
  | answered answer =>
    by_cases hlisted : answer.status ∈ up.retry.retryOnStatus
    · simp [Proxy.RetryPolicy.fails, hlisted]
    · have hclean := h k answer (Proxy.ends_iff.mpr ⟨sent, hsent, houtcome, hlisted⟩)
      simp [Proxy.Outcome.broken, hclean]

/-! ## Lines -/

theorem getLast?_toList_eq_iff {lines : List HeaderValue} : lines.getLast?.toList = lines ↔ lines.length ≤ 1 := by
  constructor
  · intro h
    rw [← h]
    exact length_toList_le
  · exact getLast?_toList_of_length

theorem filter_getLast?_eq_iff {lines : List HeaderValue} {p : HeaderValue → Bool} :
    (lines.getLast?.toList.filter p) = lines ↔ lines.length ≤ 1 ∧ ∀ line ∈ lines, p line := by
  constructor
  · intro h
    have hle : lines.length ≤ 1 := by
      rw [← h]
      exact (length_filter_le _ _).trans length_toList_le
    refine ⟨hle, ?_⟩
    rw [getLast?_toList_of_length hle] at h
    exact filter_eq_self.mp h
  · rintro ⟨hle, hall⟩
    rw [getLast?_toList_of_length hle]
    exact filter_eq_self.mpr hall

theorem getAll_egress_normalizeResponse (h : Crosses gw requestId pipeline origin answer.headers name) :
    (Pipeline.egress pipeline origin (Proxy.normalizeResponse answer)).headers.getAll name =
      (answer.headers.getAll name).getLast?.toList := by
  rw [Pipeline.getAll_egress, h.undecided, getD_none]
  exact Proxy.getAll_copyHeaders_of_free h.free

theorem getAll_sent (h : Crosses gw requestId pipeline origin answer.headers name) {marked : Response}
    (hmarked : Marked (Pipeline.egress pipeline origin (Proxy.normalizeResponse answer)) marked) :
    (finalize gw requestId marked).headers.getAll name = (answer.headers.getAll name).getLast?.toList := by
  have hlines : marked.headers.getAll name = (answer.headers.getAll name).getLast?.toList := by
    rw [← getAll_egress_normalizeResponse h]
    rcases hmarked with rfl | ⟨mark, rfl⟩
    · rfl
    · exact getAll_insertStr_ne _ _ h.unmarked
  rw [getAll_finalize_eq, getAll_stamp_of_not h.unstamped, hlines]
  exact getLast?_toList_of_length length_toList_le

theorem getAll_sent_hit (h : Crosses gw requestId pipeline origin answer.headers name) (hage : name ≠ age) {hit : Cache.Hit}
    (hkept : hit.headers = Cache.keptHeaders (Pipeline.egress pipeline origin (Proxy.normalizeResponse answer)).headers) :
    (finalize gw requestId (hitResponse hit)).headers.getAll name =
      (answer.headers.getAll name).getLast?.toList.filter HeaderValue.isVisible := by
  have hle : ((answer.headers.getAll name).getLast?.toList.filter HeaderValue.isVisible).length ≤ 1 :=
    (length_filter_le _ _).trans length_toList_le
  rw [getAll_finalize_eq, getAll_stamp_of_not h.unstamped, getAll_hitResponse hkept hage h.unmarked,
    getAll_egress_normalizeResponse h, getLast?_toList_of_length hle, getLast?_toList_of_length hle]

/-! ## Visits -/

theorem forwarding_of_forwards (h : Forwards gw plane v place up req health) :
    req.headers = v.exchange.request.headers ∧ req.clientIp = some v.exchange.peer := by
  obtain ⟨body, -, rfl⟩ := h.request
  exact ⟨rfl, rfl⟩

theorem reply_of_forwards (h : Forwards gw plane v place up req health) :
    reply gw place.route (v.meets gw plane) = (up.forward v.wire req health).result := by
  exact (dispatchOn_fst plane h.route _).symm.trans (congrArg Prod.fst (dispatchOn_of_forwards h))

end Pulsate.Http
