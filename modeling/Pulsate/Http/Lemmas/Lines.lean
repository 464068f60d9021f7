import Pulsate.Http.Lemmas.Serve
import Pulsate.Pipeline.Lemmas.Cors

/-!
# The lines of the responses that are sent

Whether a response comes from its handler or from the cache, at most one line of a name is sent, and that is the last one.
-/

namespace Pulsate.Http

open List
open Cache (Entry Hit)
open Lib (run)
open Pipeline (Cors originAllowed)
open Routing (CacheLayer Place)

variable {gw : Gateway} {name : HeaderName} {cors : Cors} {req : Request} {resp : Response}

/-! ## Lines that are set one after another -/

theorem getAll_toHyper (resp : Response) (name : HeaderName) :
    (toHyper resp).headers.getAll name = (resp.headers.getAll name).getLast?.toList :=
  getAll_foldl_insert_nil resp.headers name

theorem getAll_finalize (requestId : Str) (hid : name ≠ xRequestId) (halt : name ≠ altSvcName) :
    (finalize gw requestId resp).headers.getAll name = (resp.headers.getAll name).getLast?.toList := by
  rw [finalize, getAll_toHyper]
  cases gw.altSvc with
  | none => simp only [getAll_insertStr_ne _ _ hid]
  | some alt => simp only [getAll_insertStr_ne _ _ halt, getAll_insertStr_ne _ _ hid]

theorem headers_restored (lines : HeaderMap) (resp : Response) :
    ((Cache.keptHeaders lines).foldl restoreHeader resp).headers =
      List.foldl (fun headers line => HeaderMap.insert headers line.1 line.2) resp.headers
        (lines.filter (·.2.isVisible)) := by
  unfold Cache.keptHeaders
  induction lines generalizing resp with
  | nil => rfl
  | cons line lines ih =>
    cases hvis : line.2.isVisible with
    | false =>
      have hstr : line.2.toStr = none := by simp [HeaderValue.toStr, hvis]
      rw [filterMap_cons_none (by simp [hstr]), filter_cons_of_neg (by simp [hvis])]
      exact ih resp
    | true =>
      have hstr : line.2.toStr = some line.2.text := toStr_eq_some.mpr ⟨hvis, rfl⟩
      have hset : restoreHeader resp (line.1.text, line.2.text) = resp.insert line.1 line.2 := by
        simp [restoreHeader, parse_text, Response.insertStr, fromStr_text hvis]
      rw [filterMap_cons, hstr, filter_cons_of_pos (by exact hvis)]
      simp only [Option.map_some, foldl_cons, hset]
      exact ih _

theorem getAll_visible (lines : HeaderMap) (name : HeaderName) :
    HeaderMap.getAll (lines.filter (·.2.isVisible)) name = (lines.getAll name).filter HeaderValue.isVisible := by
  induction lines with
  | nil => rfl
  | cons line lines ih =>
    rw [filter_cons, getAll_cons]
    split <;> split <;> simp_all [getAll_cons]

theorem getAll_hitResponse {hit : Hit} {lines : HeaderMap} (hkept : hit.headers = Cache.keptHeaders lines) (hage : name ≠ age)
    (hcache : name ≠ xCache) :
    (hitResponse hit).headers.getAll name = ((lines.getAll name).filter HeaderValue.isVisible).getLast?.toList := by
  show ((Response.insertStr _ xCache _).headers).getAll name = _
  rw [getAll_insertStr_ne _ _ hcache, getAll_insertStr_ne _ _ hage, hkept, headers_restored, ← getAll_visible]
  exact getAll_foldl_insert_nil _ name

/-! ## Who is allowed -/

theorem visible_originAllowed {allow : Str} (h : originAllowed cors req.origin = some allow) :
    ∀ c ∈ allow, isVisibleChar c := by
  obtain ⟨origin, horigin, h⟩ := Option.bind_eq_some_iff.mp h
  split at h
  · cases h
    intro c hc
    rw [mem_singleton.mp hc]
    rfl
  · split at h
    · cases h
      obtain ⟨line, -, hvis, rfl⟩ := getStr_eq_some.mp horigin
      exact visible_text hvis
    · cases h

theorem getAll_of_decided (h : Decided cors req resp) :
    (resp.headers.getAll .accessControlAllowOrigin).filter HeaderValue.isVisible = resp.headers.getAll .accessControlAllowOrigin ∧
    (resp.headers.getAll .accessControlAllowOrigin).getLast?.toList = resp.headers.getAll .accessControlAllowOrigin := by
  rw [Decided] at h
  cases hallow : originAllowed cors req.origin with
  | none =>
    rw [hallow] at h
    rw [map_eq_nil_iff.mp h]
    exact ⟨rfl, rfl⟩
  | some allow =>
    rw [hallow] at h
    obtain ⟨line, hline, htext⟩ := map_eq_singleton_iff.mp h
    have hvis : line.isVisible := visible_of_text (htext.symm ▸ visible_originAllowed hallow)
    rw [hline]
    exact ⟨filter_cons_of_pos hvis, rfl⟩

theorem decided_of_getAll {other : Response} (h : Decided cors req resp)
    (hlines : other.headers.getAll .accessControlAllowOrigin = resp.headers.getAll .accessControlAllowOrigin) :
    Decided cors req other := by
  rw [Decided, hlines]
  exact h

theorem decided_finalize (requestId : Str) (h : Decided cors req resp) : Decided cors req (finalize gw requestId resp) :=
  decided_of_getAll h ((getAll_finalize requestId (by decide) (by decide)).trans (getAll_of_decided h).2)

theorem decided_hitResponse {hit : Hit} (hkept : hit.headers = Cache.keptHeaders resp.headers) (h : Decided cors req resp) :
    Decided cors req (hitResponse hit) := by
  apply decided_of_getAll h
  rw [getAll_hitResponse hkept (by decide) (by decide), (getAll_of_decided h).1, (getAll_of_decided h).2]

theorem decided_of_line (h : resp.headers.getAll .accessControlAllowOrigin =
    ((originAllowed cors req.origin).bind HeaderValue.fromStr).toList) : Decided cors req resp := by
  rw [Decided, h]
  cases hallow : originAllowed cors req.origin with
  | none => rfl
  | some allow =>
    obtain ⟨line, hline, -, htext⟩ := fromStr_of_visible (visible_originAllowed hallow)
    simp [hline, htext]

theorem decided_made {e : Exchange} {place : Place} (hsteps : Pipeline.corsSteps place.route.middleware = [cors])
    (hneutral : Pipeline.Neutral .accessControlAllowOrigin place.route.middleware)
    (hreply : (reply gw place.route e).headers.getAll .accessControlAllowOrigin = []) :
    Decided cors e.request (made gw place.route e) := by
  apply decided_of_line
  rw [made, Pipeline.getAll_origin_egress hneutral, hsteps, hreply, findSome?_singleton]
  cases (originAllowed cors e.request.origin).bind HeaderValue.fromStr with
  | none => rfl
  | some line => rfl

theorem decided_preflight : Decided cors req (Pipeline.preflight cors req.origin) := by
  apply decided_of_line
  rw [Pipeline.getAll_preflight (by decide), Pipeline.getAll_origin_applyCors]
  cases (originAllowed cors req.origin).bind HeaderValue.fromStr with
  | none => rfl
  | some line => rfl

theorem decided_of_refusal (hnone : originAllowed cors req.origin = none) (h : Pipeline.Refusal resp) :
    Decided cors req resp := by
  rw [Decided, Pipeline.getAll_of_refusal (by decide) h, hnone]
  rfl

theorem decided_of_marked {fresh : Response} (h : Decided cors req fresh) (hmarked : Marked fresh resp) :
    Decided cors req resp := by
  rcases hmarked with rfl | ⟨mark, rfl⟩
  · exact h
  · exact decided_of_getAll h (getAll_insertStr_ne _ _ (by decide))

theorem decided_of_leaves {state : State} {first : Exchange} {place : Place} {layer : CacheLayer} {key : Str} {entry : Entry}
    (now : Nat) (h : Leaves gw state first place layer key entry)
    (hdecided : Decided cors first.request (made gw place.route first)) :
    Decided cors first.request (hitResponse (Cache.hitOf now entry)) := by
  obtain ⟨-, ttl, -, -, -, rfl⟩ := h.stored
  exact decided_hitResponse rfl hdecided

end Pulsate.Http
