import Pulsate.Http.Lemmas.Egress
import Pulsate.Http.Lemmas.Upstreams
import Pulsate.Http3.Serve

/-!
# Lemmas about the HTTP/3 driver
-/

namespace Pulsate.Http3

open List Option Http Pipeline
open Http (Gateway HeaderMap HeaderName HeaderValue LetThrough Plane Response Visit payloadTooLarge xCache xRequestId)
open Routing (Place Route)

variable {gw : Gateway} {plane : Plane} {v : Visit} {place : Place} {name : HeaderName}

/-! ## Bodies -/

theorem receive_eq {maxBody : Nat} {body : List UInt8} (h : body.length ≤ maxBody) (chunks : List (List UInt8)) :
    receive maxBody body chunks =
      if body.length + chunks.flatten.length ≤ maxBody then some (body ++ chunks.flatten) else none := by
  induction chunks generalizing body with
  | nil => simp [receive, h]
  | cons data chunks ih =>
    rw [receive, flatten_cons, length_append]
    by_cases hmax : maxBody < body.length + data.length
    · rw [if_pos hmax, if_neg (by omega)]
    · rw [if_neg hmax, ih (by rw [length_append]; omega), length_append, append_assoc, Nat.add_assoc]

/-! ## Headers -/

theorem getAll_translate (resp : Response) (h : ¬ Own name) :
    (translate resp).headers.getAll name = (resp.headers.getAll name).getLast?.toList := by
  unfold Own at h
  simp only [not_or] at h
  obtain ⟨hspecific, hlength, -⟩ := h
  have hlines : HeaderMap.getAll ((resp.headers.filter (fun line => line.1.text ∉ connectionSpecific)).foldl
      (fun out line => HeaderMap.insert out line.1 line.2) []) name = (resp.headers.getAll name).getLast?.toList := by
    rw [getAll_foldl_insert_filter resp.headers (fun name => name.text ∉ connectionSpecific)]
    exact if_pos (decide_eq_true hspecific)
  unfold translate
  dsimp only
  split
  · exact hlines
  · exact (getAll_insertStr_ne _ _ hlength).trans hlines

theorem keeps_translate (resp : Response) : (translate resp).status = resp.status ∧ (translate resp).body = resp.body := by
  unfold translate
  dsimp only
  split
  · exact ⟨rfl, rfl⟩
  · exact keeps_insertStr _ _ _

theorem getAll_stamp_ne (h : name ≠ xRequestId) (requestId requestId' : Str) (resp : Response) :
    (gw.stamp requestId resp).headers.getAll name = (gw.stamp requestId' resp).headers.getAll name := by
  unfold Gateway.stamp
  cases gw.altSvc with
  | none => rw [getAll_insertStr_ne _ _ h, getAll_insertStr_ne _ _ h]
  | some alt =>
    by_cases halt : name = altSvcName
    · subst halt
      simp only [getAll_insertStr, getAll_insertStr_ne _ _ h]
    · simp only [getAll_insertStr_ne _ _ halt, getAll_insertStr_ne _ _ h]

theorem agree_translate (requestId requestId' : Str) (resp : Response) :
    Agree (finalize gw requestId resp) (translate (gw.stamp requestId' resp)) := by
  refine ⟨?_, ?_, fun name hown => ?_⟩
  · exact (keeps_stamp resp).1.trans ((keeps_translate _).1.trans (keeps_stamp resp).1).symm
  · exact (keeps_stamp resp).2.trans ((keeps_translate _).2.trans (keeps_stamp resp).2).symm
  · rw [getAll_translate _ hown, getAll_finalize_eq, getAll_stamp_ne (fun heq => hown (.inr (.inr heq))) requestId requestId']

theorem map_status_of_agreeOn {r r' : Except Cache.Panic Response} (h : AgreeOn r r') :
    r.toOption.map (·.status) = r'.toOption.map (·.status) := by
  cases r with
  | error panic =>
    cases r' with
    | error panic' => rfl
    | ok resp' => exact h.elim
  | ok resp =>
    cases r' with
    | error panic' => exact h.elim
    | ok resp' => exact congrArg some (Agree.status h)

/-! ## Bodies that are not too large -/

section Within

variable {body : List UInt8}

theorem dispatchOn_eq (hcollect : collect gw (withBody v body).exchange = some body) (requestId : Str) (handler : Conf.Handler)
    (path : Str) (pools : Str → Proxy.Health) :
    Http.dispatchOn gw (withBody v body) handler path pools = dispatchOn gw (withId v requestId) body handler path pools := by
  cases handler with
  | proxy upstream target =>
    rw [Http.dispatchOn, hcollect]
    rfl
  | respond status text => rfl
  | redirect dest status => rfl
  | files root tryFiles => rfl
  | other name => rfl

theorem drive_eq (plane : Plane) (hcollect : collect gw (withBody v body).exchange = some body) (requestId : Str) :
    Http.drive gw (fun route => Http.dispatchOn gw (withBody v body) route.handler) plane.state plane.pools (withBody v body).exchange =
      Http.drive gw (fun route => dispatchOn gw (withId v requestId) body route.handler) plane.state plane.pools
        (withId v requestId).exchange := by
  have hexchange : ∀ handler, Http.drive gw handler plane.state plane.pools (withBody v body).exchange =
      Http.drive gw handler plane.state plane.pools (withId v requestId).exchange := fun _ => rfl
  rw [hexchange]
  exact drive_congr (fun place path _ => dispatchOn_eq hcollect requestId place.route.handler path plane.pools)

end Within

theorem sameOver_of_le (plane : Plane) (v : Visit) (requestId : Str) {chunks : List (List UInt8)}
    (h : chunks.flatten.length ≤ gw.maxRequestBodyBytes) : SameOver gw plane v requestId chunks := by
  have hcollect : collect gw (withBody v chunks.flatten).exchange = some chunks.flatten :=
    filter_some_pos (decide_eq_true h)
  have hreceive : receive gw.maxRequestBodyBytes [] chunks = some chunks.flatten := by
    rw [receive_eq (Nat.zero_le _), length_nil, Nat.zero_add, if_pos h]
    rfl
  have hdrive := drive_eq plane hcollect requestId
  constructor
  · unfold serve handleRequest dispatch
    rw [hreceive, hdrive]
    dsimp only
    rcases Http.drive gw (fun route => dispatchOn gw (withId v requestId) chunks.flatten route.handler) plane.state plane.pools
      (withId v requestId).exchange with ⟨panic | resp, state, pools⟩
    · rfl
    · exact agree_translate v.exchange.requestId requestId resp
  · unfold serve handleRequest dispatch
    rw [hreceive, hdrive]

/-! ## Bodies that are too large -/

theorem body_preflight (cors : Cors) (origin : Option Str) : (preflight cors origin).body = [] := by
  have hcors := (keeps_egressStep origin (.cors cors.origins cors.methods cors.credentials) (.new 204)).2
  unfold preflight
  dsimp only
  split
  · exact hcors
  · exact (keeps_insertStr _ _ _).2.trans hcors

theorem body_of_short {clock : Nat → Nat} {pipeline : List Routing.Mw} {limiters : Nat → Waf.Buckets} {req : RequestView}
    {short : Response} (h : (ingress clock pipeline limiters req).short = some short) : short.body ≠ payloadTooLarge.body := by
  rcases ingress_cases clock pipeline limiters req with ⟨-, resp, hrefusal, heq⟩ | ⟨cors, -, -, heq⟩ | ⟨heq, -⟩
  · cases h.symm.trans heq
    cases hrefusal with
    | blocked status => exact (by decide : Str.bytes "forbidden" ≠ payloadTooLarge.body)
    | rateLimited outcome => exact (by decide : Str.bytes "rate limit exceeded" ≠ payloadTooLarge.body)
  · cases h.symm.trans heq
    rw [body_preflight]
    decide
  · cases h.symm.trans heq

theorem getAll_xCache_hitResponse (hit : Cache.Hit) : (hitResponse hit).headers.getAll xCache ≠ [] := by
  show (Response.insertStr _ xCache _).headers.getAll xCache ≠ []
  rw [getAll_insertStr]
  split <;> exact cons_ne_nil _ _

theorem getAll_xCache_of_cached {σ : Type} {route : Route} {e : Exchange} {handler : σ → Response × σ}
    {stores : Nat → Cache.MemoryStore} {s : σ} {layer : Routing.CacheLayer} {resp : Response} (hcache : route.cache = some layer)
    (h : (Http.answer route e handler stores s).1 = .ok resp) : resp.headers.getAll xCache ≠ [] := by
  unfold Http.answer at h
  rw [hcache] at h
  dsimp only at h
  rcases hlookup : cacheLookup (layerConfig layer.config) e.lookupAt e.request (stores layer.store) with ⟨panic | hit, store⟩
  · rw [hlookup] at h
    cases h
  · rw [hlookup] at h
    cases hit with
    | some hit =>
      cases h
      obtain ⟨hit, rfl⟩ := cacheLookup_hit (congrArg Prod.fst hlookup)
      exact getAll_xCache_hitResponse hit
    | none =>
      cases h
      unfold cacheStore
      split
      · rw [getAll_insertStr]
        split <;> exact cons_ne_nil _ _
      · rw [getAll_insertStr]
        exact cons_ne_nil _ _

theorem getAll_payloadTooLarge_of_ne (h : name ≠ .contentType) : payloadTooLarge.headers.getAll name = [] :=
  getAll_insert_ne _ _ h

theorem agree_payloadTooLarge {resp : Response} : Agree resp (translate payloadTooLarge) ↔ Agree resp payloadTooLarge := by
  have hlines : ∀ name, ¬ Own name → (translate payloadTooLarge).headers.getAll name = payloadTooLarge.headers.getAll name := by
    intro name hown
    rw [getAll_translate _ hown]
    refine getLast?_toList_of_length ?_
    by_cases hname : name = .contentType
    · rw [hname]
      decide
    · rw [getAll_payloadTooLarge_of_ne hname]
      decide
  obtain ⟨hstatus, hbody⟩ := keeps_translate payloadTooLarge
  constructor
  · intro h
    exact ⟨h.status.trans hstatus, h.body.trans hbody, fun name hown => (h.lines name hown).trans (hlines name hown)⟩
  · intro h
    exact ⟨h.status.trans hstatus.symm, h.body.trans hbody.symm, fun name hown => (h.lines name hown).trans (hlines name hown).symm⟩

section Out

variable {pipeline : List Routing.Mw} {origin : Option Str} {requestId : Str} {resp : Response}

theorem getAll_finalize_of_unadvertised (halt : ∀ alt, gw.altSvc = some alt → HeaderValue.fromStr alt = none) (hown : ¬ Own name) :
    (finalize gw requestId (egress pipeline origin resp)).headers.getAll name =
      ((egressLines pipeline origin name).getD (resp.headers.getAll name)).getLast?.toList := by
  have hstamps : gw.stamps requestId name = false := by
    have hid : name ≠ xRequestId := fun heq => hown (.inr (.inr heq))
    cases hsvc : gw.altSvc with
    | none => simp [Gateway.stamps, hid, hsvc]
    | some alt => simp [Gateway.stamps, hid, hsvc, halt alt hsvc]
  rw [getAll_finalize_eq, getAll_stamp_of_not hstamps, getAll_egress]

theorem unadvertised_of_agree (h : Agree (finalize gw requestId resp) payloadTooLarge) {alt : Str} (hsvc : gw.altSvc = some alt) :
    HeaderValue.fromStr alt = none := by
  have hlines := h.lines altSvcName (by decide)
  rw [getAll_finalize_eq, getAll_payloadTooLarge_of_ne (by decide), Gateway.stamp, hsvc] at hlines
  dsimp only at hlines
  rw [getAll_insertStr] at hlines
  cases hvalue : HeaderValue.fromStr alt with
  | none => rfl
  | some value =>
    rw [hvalue] at hlines
    cases hlines

theorem agree_finalize_egress_iff :
    Agree (finalize gw requestId (egress pipeline origin resp)) payloadTooLarge ↔
      (∀ alt, gw.altSvc = some alt → HeaderValue.fromStr alt = none) ∧
      resp.status = payloadTooLarge.status ∧ resp.body = payloadTooLarge.body ∧
      ∀ name, ¬ Own name → ((egressLines pipeline origin name).getD (resp.headers.getAll name)).getLast?.toList =
        payloadTooLarge.headers.getAll name := by
  have hsteps := keeps_egress pipeline origin resp
  have hstatus : (finalize gw requestId (egress pipeline origin resp)).status = resp.status :=
    (keeps_stamp _).1.trans hsteps.1
  have hbody : (finalize gw requestId (egress pipeline origin resp)).body = resp.body :=
    (keeps_stamp _).2.trans hsteps.2
  constructor
  · intro h
    have halt : ∀ alt, gw.altSvc = some alt → HeaderValue.fromStr alt = none := fun alt => unadvertised_of_agree h
    refine ⟨halt, hstatus.symm.trans h.status, hbody.symm.trans h.body, fun name hown => ?_⟩
    rw [← h.lines name hown, getAll_finalize_of_unadvertised halt hown]
  · rintro ⟨halt, hstatus', hbody', hlines⟩
    refine ⟨hstatus.trans hstatus', hbody.trans hbody', fun name hown => ?_⟩
    rw [getAll_finalize_of_unadvertised halt hown, hlines name hown]

end Out

theorem dispatchOn_of_collect_none (hcollect : collect gw v.exchange = none) (route : Route) (pools : Str → Proxy.Health) :
    Http.dispatchOn gw v route.handler (rewritten route.middleware v.exchange.request.path) pools =
      (handlerAnswer v route, pools) := by
  unfold handlerAnswer
  cases route.handler with
  | proxy upstream target => rw [Http.dispatchOn, hcollect]
  | respond status text => rfl
  | redirect dest status => rfl
  | files root tryFiles => rfl
  | other name => rfl

theorem serve_of_short {short : Response} (hplace : gw.placeOf v.exchange.request = some place)
    (h : (plane.state.ingress place v.exchange).short = some short) :
    (serve gw plane v).1 = .ok (finalize gw v.exchange.requestId short) := by
  have hresp : (Http.drive gw (fun route => Http.dispatchOn gw v route.handler) plane.state plane.pools v.exchange).1 = .ok short :=
    congrArg Prod.fst (drive_of_short hplace h)
  rw [serve]
  dsimp only
  rw [hresp]
  rfl

theorem serve_uncached (hcollect : collect gw v.exchange = none) (hplace : gw.placeOf v.exchange.request = some place)
    (hcache : place.route.cache = none) (hthrough : LetThrough plane.state place v.exchange) :
    serve gw plane v = (.ok (finalize gw v.exchange.requestId
        (egress place.route.middleware v.exchange.request.origin (handlerAnswer v place.route))),
      ⟨⟨plane.state.stores, Function.update plane.state.limiters (place.site, place.index) (plane.state.ingress place v.exchange).limiters⟩,
        plane.pools⟩) := by
  rw [serve, drive_of_letThrough _ _ hplace hthrough, Http.answer, hcache, dispatchOn_of_collect_none hcollect]
  rfl

/-- The response is the bare refusal, and nothing has changed, only where the route without a cache gives it. -/
theorem bareRefusal_iff (hcollect : collect gw v.exchange = none) :
    AgreeOn (serve gw plane v).1 (.ok (translate payloadTooLarge)) ∧ (serve gw plane v).2 = plane ↔
      ∃ place, BareRefusal gw plane v place := by
  constructor
  · rintro ⟨hresp, hplane⟩
    cases hplace : gw.placeOf v.exchange.request with
    | none =>
      rw [serve, drive_of_none hplace] at hresp
      have hstatus := hresp.status
      rw [(keeps_translate payloadTooLarge).1] at hstatus
      cases (keeps_stamp notFound).1.symm.trans hstatus
    | some place =>
      cases hshort : (plane.state.ingress place v.exchange).short with
      | some short =>
        rw [serve_of_short hplace hshort] at hresp
        have hbody := hresp.body
        rw [(keeps_translate payloadTooLarge).2] at hbody
        exact absurd ((keeps_stamp short).2.symm.trans hbody) (body_of_short hshort)
      | none =>
        cases hcache : place.route.cache with
        | none =>
          rw [serve_uncached hcollect hplace hcache hshort] at hresp hplane
          have hlimiters := Function.update_eq_self_iff.mp (congrArg (fun p => p.state.limiters) hplane)
          obtain ⟨halt, hstatus, hbody, hlines⟩ := agree_finalize_egress_iff.mp (agree_payloadTooLarge.mp hresp)
          exact ⟨place, hplace, hcache, hshort, (ingress_limiters_eq_self_iff hshort).mp hlimiters, halt, hstatus,
            hbody, hlines⟩
        | some layer =>
          rw [serve, drive_of_letThrough _ _ hplace hshort] at hresp
          dsimp only at hresp
          cases hanswer : (Http.answer place.route v.exchange (Http.dispatchOn gw v place.route.handler
              (rewritten place.route.middleware v.exchange.request.path)) plane.state.stores plane.pools).1 with
          | error panic =>
            rw [hanswer] at hresp
            exact hresp.elim
          | ok resp =>
            rw [hanswer] at hresp
            -- the mark of the cache stands on the one response and not on the other
            have hmark := hresp.lines xCache (by decide)
            rw [getAll_finalize _ (by decide) (by decide)] at hmark
            have hnone : (translate payloadTooLarge).headers.getAll xCache = [] := by decide
            rw [hnone] at hmark
            have hlast := getLast?_eq_none_iff.mp (toList_eq_nil_iff.mp hmark)
            exact absurd hlast (getAll_xCache_of_cached hcache hanswer)
  · rintro ⟨place, hbare⟩
    have hlimiters : (plane.state.ingress place v.exchange).limiters = _ :=
      (ingress_limiters_eq_self_iff hbare.through).mpr hbare.uncounted
    rw [serve_uncached hcollect hbare.route hbare.uncached hbare.through, hlimiters, Function.update_eq_self]
    refine ⟨agree_payloadTooLarge.mpr (agree_finalize_egress_iff.mpr ?_), rfl⟩
    exact ⟨hbare.unadvertised, hbare.status, hbare.body, hbare.lines⟩

theorem sameOver_iff_of_lt (plane : Plane) (v : Visit) (requestId : Str) {chunks : List (List UInt8)}
    (h : gw.maxRequestBodyBytes < chunks.flatten.length) :
    SameOver gw plane v requestId chunks ↔ ∃ place, BareRefusal gw plane (withBody v chunks.flatten) place := by
  have hcollect : collect gw (withBody v chunks.flatten).exchange = none :=
    filter_some_neg (decide_eq_false (Nat.not_le.mpr h))
  have hhandle : handleRequest gw plane (withId v requestId) chunks = (.ok (translate payloadTooLarge), plane) := by
    rw [handleRequest, receive_eq (Nat.zero_le _), length_nil, Nat.zero_add, if_neg (Nat.not_le.mpr h)]
  rw [← bareRefusal_iff hcollect]
  constructor
  · rintro ⟨hresp, hplane⟩
    rw [hhandle] at hresp hplane
    exact ⟨hresp, hplane⟩
  · rintro ⟨hresp, hplane⟩
    constructor
    · rw [hhandle]
      exact hresp
    · rw [hhandle]
      exact hplane

end Pulsate.Http3
