import Pulsate.Http.Lemmas.Relay
import Pulsate.Lib.Except

/-!
# Results about serving requests
-/

namespace Pulsate.Http

open List Proxy
open Cache (CacheConfig Entry)
open Lib (run)
open Pipeline (Cors originAllowed)
open Routing (CacheLayer Place Route)

/-! ## Keys and variants -/

/-- Requests with the same key ask for the same variant exactly if two such requests that show the same of every header in the key
have the same lines of it. -/
theorem key_separates_iff (config : CacheConfig) (r₁ r₂ : Request) :
    (r₁.key config = r₂.key config → SameVariant config r₁ r₂) ↔
      (SameTarget r₁ r₂ → (∀ name ∈ config.vary, shown (r₁.lines name) = shown (r₂.lines name)) →
        ∀ name ∈ config.vary, r₁.lines name = r₂.lines name) := by
  rw [key_eq_iff]
  constructor
  · intro h htarget hshown
    exact (h ⟨htarget, hshown⟩).lines
  · rintro h ⟨htarget, hshown⟩
    exact ⟨htarget, h htarget hshown⟩

/-- A request for the root of a host. -/
def getRoot (headers : HeaderMap) : Request where
  method := "GET"
  path := "/"
  query := none
  authority := some "a.test"
  headers := headers
  methodValid := by decide
  pathValid := by decide
  queryValid := by decide
  authorityValid := by decide

def accept : HeaderName := ⟨"accept", by decide⟩

def varyAccept : CacheConfig := ⟨.fromSecs 60, ["GET"], ["accept"], .zero, 100, 1000, 100000⟩

/-- A header that is absent is taken for an empty one, and a line that is no string for another. -/
theorem key_collides : (getRoot []).key varyAccept = (getRoot [(accept, ⟨[], rfl⟩)]).key varyAccept ∧
    ¬ SameVariant varyAccept (getRoot []) (getRoot [(accept, ⟨[], rfl⟩)]) ∧
    (getRoot [(accept, ⟨[0xE9], rfl⟩)]).key varyAccept = (getRoot [(accept, ⟨[0xFC], rfl⟩)]).key varyAccept ∧
    ¬ SameVariant varyAccept (getRoot [(accept, ⟨[0xE9], rfl⟩)]) (getRoot [(accept, ⟨[0xFC], rfl⟩)]) := by
  refine ⟨by decide, fun h => ?_, by decide, fun h => ?_⟩
  · exact absurd (h.lines "accept" (by decide)) (by decide)
  · exact absurd (h.lines "accept" (by decide)) (by decide)

/-! ## Responses to authorised requests -/

/-- What is served from the cache was made for a request without authorisation or with the same, or may be shared, in every run in
which that holds of the requests that may be served each other's responses. -/
theorem authorized_unshared (gw : Gateway) (es : List Exchange) (e : Exchange) (place : Place) (layer : CacheLayer) (key : Str)
    (entry : Entry) (h : AnsweredFrom gw (run (step gw) .new es) e place layer key entry)
    (hsame : ∀ first ∈ es, MayServe gw place layer first e → first.request.authorization ≠ [] →
      ¬ MayShare (reply gw place.route first) → first.request.authorization = e.request.authorization) :
    (handle gw (run (step gw) .new es) e).1 =
      .ok (finalize gw e.requestId (hitResponse (Cache.hitOf e.lookupAt entry))) ∧
    (∃ pre first post, es = pre ++ first :: post ∧ Leaves gw (run (step gw) .new pre) first place layer key entry) ∧
    ∀ pre first post, es = pre ++ first :: post → Leaves gw (run (step gw) .new pre) first place layer key entry →
      first.request.authorization = [] ∨ first.request.authorization = e.request.authorization ∨
        MayShare (reply gw place.route first) := by
  refine ⟨handle_of_answeredFrom h, leaves_of_answeredFrom h, ?_⟩
  rintro pre first post rfl hleaves
  by_cases hauth : first.request.authorization = []
  · exact .inl hauth
  · by_cases hshare : MayShare (reply gw place.route first)
    · exact .inr (.inr hshare)
    · have hmem : first ∈ pre ++ first :: post := mem_append_right _ mem_cons_self
      exact .inr (.inl (hsame first hmem (mayServe_of_leaves hleaves h) hauth hshare))

def sampleLayer : CacheLayer := ⟨0, 60, ["GET"], [], 0, 100, 1000, 100000⟩

/-- A cached route in front of a server. -/
def cachedRoute (middleware : List Routing.Mw) : Route where
  kind := .Prefix
  pattern := "/*"
  method := none
  middleware := middleware
  cache := some sampleLayer
  handler := .proxy none (some "http://b.test")

def cachedGateway (middleware : List Routing.Mw) : Gateway where
  router := ⟨[⟨["a.test"], [cachedRoute middleware]⟩]⟩
  upstreams := ∅
  altSvc := none
  maxRequestBodyBytes := 1000

/-- The server answers with the authorisation that it is sent. -/
def echo : World where
  files := fun _ _ _ => .new 404
  forward := fun _ req => (Response.new 200).withBody ((req.headers.getAll .authorization).flatMap (·.bytes))

def visit (headers : HeaderMap) (now : Nat) : Exchange where
  request := getRoot headers
  peer := .v4 0
  body := some []
  requestId := "1"
  clock := fun _ => now
  lookupAt := now
  storeAt := now
  order := .byKey _ _
  world := echo

def authorized : HeaderMap := [(.authorization, ⟨Str.bytes "Bearer a", by decide⟩)]

/-- What the first visit leaves. -/
def visitEntry (headers : List (Str × Str)) (body : List UInt8) : Entry := ⟨200, headers, body, 0, .fromSecs 60, .zero, []⟩

theorem not_mayShare_of_nil {resp : Response} (h : resp.headers = []) : ¬ MayShare resp := by
  unfold MayShare Cache.Carries
  rw [h]
  simp [getAll_nil]

/-- A response that shows a token is served to a visitor without one. -/
theorem authorized_shared : ∃ place layer key entry, "authorization".toList ∉ layer.config.vary ∧
    Leaves (cachedGateway []) .new (visit authorized 0) place layer key entry ∧
    ¬ MayShare (reply (cachedGateway []) place.route (visit authorized 0)) ∧
    AnsweredFrom (cachedGateway []) (run (step (cachedGateway [])) .new [visit authorized 0]) (visit [] 1) place layer key entry ∧
    (visit [] 1).request.authorization ≠ (visit authorized 0).request.authorization := by
  refine ⟨⟨0, 0, cachedRoute []⟩, sampleLayer, (getRoot []).key (layerConfig sampleLayer.config),
    visitEntry [] (Str.bytes "Bearer a"), by decide, ?_, not_mayShare_of_nil (by decide), ?_, by decide⟩
  · exact ⟨⟨by decide, rfl, by decide, by decide, by decide⟩, .new, .fromSecs 60, by decide, by decide, by decide, by decide⟩
  · exact ⟨⟨by decide, rfl, by decide, by decide, rfl⟩, by decide, by decide⟩

/-- A visitor comes back. -/
theorem authorized_unshared_again : (handle (cachedGateway []) (run (step (cachedGateway [])) .new [visit authorized 0])
    (visit authorized 1)).1 = .ok (finalize (cachedGateway []) "1" (hitResponse (Cache.hitOf 1 (visitEntry [] (Str.bytes "Bearer a"))))) := by
  refine (authorized_unshared _ [visit authorized 0] (visit authorized 1) ⟨0, 0, cachedRoute []⟩ _ _ _
    ⟨⟨by decide, rfl, by decide, by decide, rfl⟩, by decide, by decide⟩ ?_).1
  intro first hfirst _ _ _
  rw [mem_singleton.mp hfirst]
  rfl

/-! ## Allowed origins -/

/-- Every response of a route with one `cors` step allows what the step decides for the request's own origin, in every run in which
no accepted request is turned away and the requests that may be served each other's responses are decided alike. -/
theorem origin_decided (gw : Gateway) (es : List Exchange) (e : Exchange) (place : Place) (layer : CacheLayer) (cors : Cors)
    (resp : Response) (hplace : gw.placeOf e.request = some place) (hcache : place.route.cache = some layer)
    (hsteps : Pipeline.corsSteps place.route.middleware = [cors])
    (hreply : ∀ x ∈ es ++ [e], gw.placeOf x.request = some place →
      (reply gw place.route x).headers.getAll .accessControlAllowOrigin = [])
    (hneutral : Pipeline.Neutral .accessControlAllowOrigin place.route.middleware)
    (hlet : originAllowed cors e.request.origin ≠ none →
      ¬ Pipeline.Rejected e.clock place.route.middleware ((run (step gw) .new es).limiters (place.site, place.index)) (requestView e))
    (hagree : ∀ first ∈ es, MayServe gw place layer first e →
      originAllowed cors first.request.origin = originAllowed cors e.request.origin)
    (h : (handle gw (run (step gw) .new es) e).1 = .ok resp) : Decided cors e.request resp := by
  obtain ⟨sent, rfl, hsent⟩ := handle_cases hplace h
  apply decided_finalize
  rcases hsent with ⟨hrejected, hrefusal⟩ | ⟨cors', hcors', rfl⟩ | hmarked | ⟨layer', key, entry, hfrom, rfl⟩
  · exact decided_of_refusal (Classical.not_not.mp (fun hne => hlet hne hrejected)) hrefusal
  · rw [hsteps, mem_singleton] at hcors'
    subst hcors'
    exact decided_preflight
  · have hown := hreply e (mem_append_right _ (mem_singleton_self e)) hplace
    exact decided_of_marked (decided_made hsteps hneutral hown) hmarked
  · -- the entry was made for an earlier request, about which the step has decided in the same way
    cases hcache.symm.trans hfrom.cache
    obtain ⟨pre, first, post, rfl, hleaves⟩ := leaves_of_answeredFrom hfrom
    have hmem : first ∈ pre ++ first :: post := mem_append_right _ mem_cons_self
    have hfirst := hreply first (mem_append_left _ hmem) hleaves.route
    have hdecided := decided_of_leaves e.lookupAt hleaves (decided_made hsteps hneutral hfirst)
    rw [Decided, hagree first hmem (mayServe_of_leaves hleaves hfrom)] at hdecided
    exact hdecided

def corsPipeline : List Routing.Mw := [.cors ["https://a.test"] [] false]

def corsGateway : Gateway := cachedGateway corsPipeline

def fromOrigin : HeaderMap := [(.origin, ⟨Str.bytes "https://a.test", by decide⟩)]

/-- A visitor without an origin is told that another one's is allowed. -/
theorem origin_replayed : ∃ place layer cors resp, corsGateway.placeOf (visit [] 1).request = some place ∧
    place.route.cache = some layer ∧ Pipeline.corsSteps place.route.middleware = [cors] ∧
    (∀ x ∈ [visit fromOrigin 0, visit [] 1], (reply corsGateway place.route x).headers = []) ∧
    (handle corsGateway (run (step corsGateway) .new [visit fromOrigin 0]) (visit [] 1)).1 = .ok resp ∧
    ¬ Decided cors (visit [] 1).request resp := by
  have hfrom : AnsweredFrom corsGateway (run (step corsGateway) .new [visit fromOrigin 0]) (visit [] 1)
      ⟨0, 0, cachedRoute corsPipeline⟩ sampleLayer _ (visitEntry [("access-control-allow-origin", "https://a.test")] []) :=
    ⟨⟨by decide, rfl, by decide, by decide, rfl⟩, by decide, by decide⟩
  exact ⟨_, sampleLayer, ⟨["https://a.test"], [], false⟩, _, hfrom.route, rfl, rfl, by decide, handle_of_answeredFrom hfrom,
    by decide⟩

/-- A visitor from the allowed origin comes back. -/
theorem origin_decided_again : ∃ resp, (handle corsGateway (run (step corsGateway) .new [visit fromOrigin 0])
    (visit fromOrigin 1)).1 = .ok resp ∧ Decided ⟨["https://a.test"], [], false⟩ (visit fromOrigin 1).request resp := by
  have hfrom : AnsweredFrom corsGateway (run (step corsGateway) .new [visit fromOrigin 0]) (visit fromOrigin 1)
      ⟨0, 0, cachedRoute corsPipeline⟩ sampleLayer _ (visitEntry [("access-control-allow-origin", "https://a.test")] []) :=
    ⟨⟨by decide, rfl, by decide, by decide, rfl⟩, by decide, by decide⟩
  refine ⟨_, handle_of_answeredFrom hfrom, origin_decided corsGateway [visit fromOrigin 0] (visit fromOrigin 1) _ sampleLayer
    ⟨["https://a.test"], [], false⟩ _ hfrom.route rfl rfl ?_ ?_ ?_ ?_ (handle_of_answeredFrom hfrom)⟩
  · have hheaders : ∀ x ∈ [visit fromOrigin 0, visit fromOrigin 1],
        (reply corsGateway (cachedRoute corsPipeline) x).headers = [] := by decide
    intro x hx _
    rw [hheaders x hx]
    rfl
  · intro set remove hmem
    cases mem_singleton.mp hmem
  · rintro - ⟨pre, mw, post, hpipeline, hrejects⟩
    have hmem : mw ∈ corsPipeline := by
      rw [show corsPipeline = pre ++ mw :: post from hpipeline]
      simp
    cases mem_singleton.mp hmem
    cases hrejects
  · intro first hfirst _
    rw [mem_singleton.mp hfirst]
    rfl

/-! ## The way in -/

/-- A pipeline lets a request from a known address through exactly if nothing in it stands in its way, and else the request goes
as far as the first step that does. Nothing of the cache or the handler is used for a request that is not let through. -/
theorem ingress_gates (gw : Gateway) :
    (∀ (clock : Nat → Nat) (pipeline : List Routing.Mw) (limiters : Nat → Waf.Buckets) (req : Pipeline.RequestView) (ip : IpAddr),
      req.clientIp = some ip → Pipeline.Gates clock pipeline limiters req ip) ∧
    ∀ (state : State) (e : Exchange) (place : Place), gw.placeOf e.request = some place → ¬ LetThrough state place e →
      Unreached gw state e := by
  refine ⟨fun clock pipeline limiters req ip hip => Pipeline.gates_of_clientIp hip, fun state e place hplace hshort => ?_⟩
  obtain ⟨short, hshort⟩ := Option.ne_none_iff_exists'.mp hshort
  obtain ⟨hresp, hstate⟩ := handle_of_short hplace hshort
  refine ⟨hstate, fun stores other hrequest hpeer hid hclock => ?_⟩
  have hview : requestView other = requestView e := by
    unfold requestView
    rw [hrequest, hpeer]
  have hplace' : gw.placeOf other.request = some place := by rw [hrequest, hplace]
  have hshort' : (Pipeline.ingress other.clock place.route.middleware ((State.mk stores state.limiters).limiters
      (place.site, place.index)) (requestView other)).short = some short := by
    rw [hclock, hview]
    exact hshort
  have hother : (handle gw ⟨stores, state.limiters⟩ other).1 = .ok (finalize gw other.requestId short) :=
    (handle_of_short hplace' hshort').1
  rw [hresp, hother, hid]

/-! ## The way out -/

/-- The response to a request of a route has gone through the steps exactly if it comes from the handler or what the steps decide
stood on it already. -/
theorem egressRuns_iff (gw : Gateway) (state : State) (e : Exchange) :
    (∀ place, gw.placeOf e.request = some place → EgressRuns gw state e place) ↔
    ∀ place, gw.placeOf e.request = some place →
      (∀ short, (state.ingress place e).short = some short → Stands gw e.requestId place.route.middleware e.request.origin short) ∧
      ∀ layer key entry, AnsweredFrom gw state e place layer key entry →
        Stands gw e.requestId place.route.middleware e.request.origin (hitResponse (Cache.hitOf e.lookupAt entry)) := by
  refine forall_congr' (fun place => forall_congr' (fun hplace => ?_))
  constructor
  · intro h
    refine ⟨fun short hshort => ?_, fun layer key entry hfrom => ?_⟩
    · exact (same_egress_iff _ _ _).mp (h.short short _ hshort (handle_of_short hplace hshort).1)
    · exact (same_egress_iff _ _ _).mp (h.hit layer key entry _ hfrom (handle_of_answeredFrom hfrom))
  · rintro ⟨hshorts, hhits⟩
    refine ⟨fun short resp hshort hresp => ?_, fun layer key entry resp hfrom hresp => ?_, fun hthrough hnone resp hresp => ?_⟩
    · cases hresp.symm.trans (handle_of_short hplace hshort).1
      exact (same_egress_iff _ _ _).mpr (hshorts short hshort)
    · cases hresp.symm.trans (handle_of_answeredFrom hfrom)
      exact (same_egress_iff _ _ _).mpr (hhits layer key entry hfrom)
    · rw [(handle_of_letThrough hplace hthrough).1] at hresp
      cases hanswered : (answered gw place.route e state.stores).1 with
      | error panic =>
        rw [hanswered] at hresp
        cases hresp
      | ok sent =>
        rw [hanswered] at hresp
        cases hresp
        rcases answered_cases hplace hthrough hanswered with hmarked | ⟨layer, key, entry, hfrom, -⟩
        · exact ⟨sent, hmarked, .refl _⟩
        · exact absurd hfrom (hnone layer key entry)

/-- Only one address is let in. -/
def guardedPipeline : List Routing.Mw := corsPipeline ++ [.ip ⟨[⟨.v4 1, 32⟩], []⟩]

/-- A visitor from an allowed origin is turned away, and is not told that the origin is allowed. -/
theorem refused_without_egress : ∃ place, (cachedGateway guardedPipeline).placeOf (visit fromOrigin 0).request = some place ∧
    ¬ EgressRuns (cachedGateway guardedPipeline) .new (visit fromOrigin 0) place := by
  have hplace : (cachedGateway guardedPipeline).placeOf (visit fromOrigin 0).request =
      some ⟨0, 0, cachedRoute guardedPipeline⟩ := by decide
  have hshort : (Pipeline.ingress (visit fromOrigin 0).clock guardedPipeline (State.new.limiters (0, 0))
      (requestView (visit fromOrigin 0))).short = some (Pipeline.blocked 403) := by decide
  refine ⟨_, hplace, fun h => ?_⟩
  have hsame := (h.short _ _ hshort (handle_of_short hplace hshort).1).lines .accessControlAllowOrigin
  revert hsame
  decide

/-- The visitor is turned away at the second step. -/
theorem ingress_gates_guarded :
    (∃ pre mw post, guardedPipeline = pre ++ mw :: post ∧ Pipeline.StoppedAt (fun _ => 0) (fun _ => ∅)
      (requestView (visit [] 0)) pre mw (Pipeline.blocked 403)
      (Pipeline.ingress (fun _ => 0) guardedPipeline (fun _ => ∅) (requestView (visit [] 0))).limiters) ∧
    Unreached (cachedGateway guardedPipeline) .new (visit [] 0) :=
  ⟨((ingress_gates (cachedGateway guardedPipeline)).1 (fun _ => 0) guardedPipeline (fun _ => ∅) (requestView (visit [] 0)) (.v4 0)
      rfl).stops _ (by decide),
    (ingress_gates (cachedGateway guardedPipeline)).2 .new (visit [] 0) ⟨0, 0, cachedRoute guardedPipeline⟩ (by decide) (by decide)⟩

/-! ## Answers that break off -/

/-- Only whole answers are passed on, recorded as successes and stored exactly if every answer that ends the call of a request is
whole. -/
theorem passesWhole_iff (gw : Gateway) (plane : Plane) (v : Visit) :
    (∀ place up req health, Forwards gw plane v place up req health → PassesWhole gw plane v up req health) ↔
    ∀ place up req health, Forwards gw plane v place up req health →
      ∀ k answer, up.Ends v.wire req health k answer → answer.clean := by
  refine forall_congr' (fun place => forall_congr' (fun up => forall_congr' (fun req => forall_congr' (fun health =>
    forall_congr' (fun hforwards => ?_)))))
  constructor
  · intro h k answer hends
    refine (h.whole k answer hends ?_).2
    rw [result_of_ends hends]
    rfl
  · intro h
    refine ⟨fun k answer hends _ => ?_, fun k answer hends hbroken => ?_, ?_, fun k answer hends hbroken => ?_⟩
    · have hclean := h k answer hends
      rw [result_of_ends hends, normalizeResponse, if_pos hclean]
      exact ⟨rfl, hclean⟩
    · exact absurd (h k answer hends) (by simp [hbroken])
    · rw [map_wholeRecord h]
      exact recorded_forward up v.wire req health
    · exact absurd (h k answer hends) (by simp [hbroken])

/-- A visit whose request to the upstream is answered so. -/
def answeredVisit (answer : Answer) (headers : HeaderMap) (now : Nat) : Visit :=
  ⟨visit headers now, ⟨fun _ => 0, fun _ => true, fun _ _ => 0, fun _ => 0, fun _ => .answered answer⟩⟩

def brokenAnswer : Answer := ⟨200, [], [[1], [2]], false⟩

/-- The pool of the sample routes. -/
def samplePool : Upstream := .new "_direct" [("http://b.test", 1)] .roundRobin .default .default

def sampleForwarding (headers : HeaderMap) : Forwarding := ⟨"GET", "/", headers, [], some (.v4 0), "a.test"⟩

theorem forwards_sample (answer : Answer) :
    Forwards (cachedGateway []) .new (answeredVisit answer [] 0) ⟨0, 0, cachedRoute []⟩ samplePool (sampleForwarding []) .new := by
  have hplace : (cachedGateway []).placeOf (getRoot []) = some ⟨0, 0, cachedRoute []⟩ := by decide
  refine ⟨hplace, rfl, ?_, rfl, rfl, [], rfl, rfl⟩
  rintro layer ⟨⟩
  rfl

theorem ends_sample (answer : Answer) (h : answer.status ∉ samplePool.retry.retryOnStatus) :
    samplePool.Ends (answeredVisit answer [] 0).wire (sampleForwarding []) .new 0 answer :=
  ⟨by decide, ⟨.new, 0, _, rfl, rfl⟩, rfl, h⟩

/-- An empty body is sent and stored for a body that breaks off. -/
theorem broken_passed_on : Forwards (cachedGateway []) .new (answeredVisit brokenAnswer [] 0) ⟨0, 0, cachedRoute []⟩ samplePool
      (sampleForwarding []) .new ∧
    samplePool.Ends (answeredVisit brokenAnswer [] 0).wire (sampleForwarding []) .new 0 brokenAnswer ∧
    (serve (cachedGateway []) .new (answeredVisit brokenAnswer [] 0)).1.toOption.map (fun resp => (resp.status, resp.body)) =
      some (200, []) ∧
    (((serve (cachedGateway []) .new (answeredVisit brokenAnswer [] 0)).2.state.stores 0).visible
      ((getRoot []).key (layerConfig sampleLayer.config))).map (·.body) = some [] ∧
    ¬ PassesWhole (cachedGateway []) .new (answeredVisit brokenAnswer [] 0) samplePool (sampleForwarding []) .new := by
  have hends := ends_sample brokenAnswer (by decide)
  refine ⟨forwards_sample brokenAnswer, hends, by decide, by decide, fun h => ?_⟩
  have hwhole := h.whole 0 brokenAnswer hends (by decide)
  cases hwhole.2

/-! ## Lines that cross -/

/-- Lines cross unchanged exactly if there is no more than one of their name, in the request as in the response, and from the cache
only if they are strings as well. The addresses that a request has come from are passed on exactly if they are all on the first
line. -/
theorem linesCross_iff (gw : Gateway) (plane : Plane) (v : Visit) (place : Place) (up : Upstream) (req : Forwarding)
    (health : Health) (hforwards : Forwards gw plane v place up req health) :
    (∀ sent ∈ (up.forward v.wire req health).sent,
      (∀ name, ¬ Held v.exchange.request.headers name → req.sets name = false →
        (sent.request.headers.getAll name = v.exchange.request.headers.getAll name ↔
          (v.exchange.request.headers.getAll name).length ≤ 1)) ∧
      (forwardedItems sent.request.headers =
          forwardedItems v.exchange.request.headers ++ [v.exchange.peer.toText] ↔
        ListsFirst v.exchange.request.headers)) ∧
    ∀ k answer, up.Ends v.wire req health k answer →
      (∀ resp, (serve gw plane v).1 = .ok resp → ∀ name,
        Crosses gw v.exchange.requestId place.route.middleware v.exchange.request.origin answer.headers name →
          (resp.headers.getAll name = answer.headers.getAll name ↔ (answer.headers.getAll name).length ≤ 1)) ∧
      (∀ layer key entry plane' w resp, Leaves gw plane.state (v.meets gw plane) place layer key entry →
        AnsweredFrom gw plane'.state (w.meets gw plane') place layer key entry → (serve gw plane' w).1 = .ok resp → ∀ name,
        Crosses gw w.exchange.requestId place.route.middleware v.exchange.request.origin answer.headers name → name ≠ age →
          (resp.headers.getAll name = answer.headers.getAll name ↔
            (answer.headers.getAll name).length ≤ 1 ∧ ∀ line ∈ answer.headers.getAll name, line.isVisible)) := by
  obtain ⟨hheaders, hip⟩ := forwarding_of_forwards hforwards
  refine ⟨fun sent hsent => ?_, fun k answer hends => ?_⟩
  · rw [headers_of_sent hsent, ← hheaders]
    refine ⟨fun name hfree hsets => ?_, forwardedItems_iff hip⟩
    rw [getAll_outHeaders hsets, getAll_copyHeaders_of_free hfree]
    exact getLast?_toList_eq_iff
  have hresult := result_of_ends hends
  refine ⟨fun resp hresp name hcrosses => ?_,
    fun layer key entry plane' w resp hleaves hfrom hresp name hcrosses hage => ?_⟩
  · obtain ⟨marked, hmarked, hserve, -⟩ := serve_of_forwards hforwards
    cases hresp.symm.trans hserve
    rw [hresult] at hmarked
    rw [getAll_sent hcrosses hmarked]
    exact getLast?_toList_eq_iff
  · obtain ⟨-, ttl, -, -, -, rfl⟩ := hleaves.stored
    rw [(serve_eq_handle gw plane' w).1, handle_of_answeredFrom hfrom] at hresp
    cases hresp
    have hmade : made gw place.route (v.meets gw plane) =
        Pipeline.egress place.route.middleware v.exchange.request.origin (normalizeResponse answer) := by
      rw [made, reply_of_forwards hforwards, hresult]
      rfl
    have hkept : (Cache.hitOf (w.meets gw plane').lookupAt (Cache.entryOf (layerConfig layer.config) (v.meets gw plane).storeAt
        (made gw place.route (v.meets gw plane)).status (made gw place.route (v.meets gw plane)).headers
        (made gw place.route (v.meets gw plane)).body ttl)).headers =
        Cache.keptHeaders (Pipeline.egress place.route.middleware v.exchange.request.origin
          (normalizeResponse answer)).headers := by
      rw [hmade]
      rfl
    rw [show (w.meets gw plane').requestId = w.exchange.requestId from rfl, getAll_sent_hit hcrosses hage hkept]
    exact filter_getLast?_eq_iff

/-- An answer with these lines of one name. -/
def cookieAnswer (values : List HeaderValue) : Answer := ⟨200, values.map (fun value => (.setCookie, value)), [], true⟩

def firstCookie : HeaderValue := ⟨Str.bytes "a=1", by decide⟩

def secondCookie : HeaderValue := ⟨Str.bytes "b=2", by decide⟩

theorem linesCross_iff_cookie : ∃ resp,
    (serve (cachedGateway []) .new (answeredVisit (cookieAnswer [firstCookie]) [] 0)).1 = .ok resp ∧
      resp.headers.getAll .setCookie = [firstCookie] := by
  obtain ⟨marked, -, hresp, -⟩ := serve_of_forwards (forwards_sample (cookieAnswer [firstCookie]))
  refine ⟨_, hresp, (((linesCross_iff _ _ _ _ _ _ _ (forwards_sample (cookieAnswer [firstCookie]))).2 _ _
    (ends_sample (cookieAnswer [firstCookie]) (by decide))).1 _ hresp .setCookie ⟨?_, rfl, by decide, by decide⟩).mpr (by decide)⟩
  rintro (hstatic | ⟨line, hline, -⟩)
  · exact absurd hstatic (by decide)
  · cases hline

/-- Of two cookies only the second arrives. -/
theorem cookie_lost : ((cookieAnswer [firstCookie, secondCookie]).headers.getAll .setCookie = [firstCookie, secondCookie]) ∧
    (serve (cachedGateway []) .new (answeredVisit (cookieAnswer [firstCookie, secondCookie]) [] 0)).1.toOption.map
      (fun resp => resp.headers.getAll .setCookie) = some [secondCookie] := by
  decide

/-! ## Times -/

/-- A breaker that stays open for as many seconds as 64 bits can count. -/
def endlessText : Str := "upstream p \x7b\n  target http://b.test\n  breaker \x7b\n    consecutive 1\n    open_for 18446744073709551615s\n" ++
  "  \x7d\n\x7d\nsite a.test \x7b\n  route /* ~> proxy(@p)\n\x7d\n"

def endlessPool : Upstream := ⟨"p", [⟨"http://b.test", 1⟩], .roundRobin, .default, ⟨1, .fromSecs 18446744073709551615⟩⟩

/-- The tables that are built from it. -/
def endlessGateway : Gateway where
  router := ⟨[⟨["a.test"], [⟨.Prefix, "/*", none, [], none, .proxy (some "p") none⟩]⟩]⟩
  upstreams := Registry.add ∅ endlessPool
  altSvc := none
  maxRequestBodyBytes := 1000

theorem endless_compiles : (Conf.compile (fun _ => none) endlessText 0).toOption.map (fun compiled => Cli.gatewayOf compiled.config) =
    some endlessGateway.toGateway := by
  decide +kernel

/-- A visit, a second after the start, whose connection to the upstream fails. -/
def failedVisit : Visit := ⟨visit [] (10 ^ 9), ⟨fun _ => 0, fun _ => true, fun _ _ => 10 ^ 9, fun _ => 10 ^ 9, fun _ => .failed false⟩⟩

theorem failedVisit_early : failedVisit.Early := ⟨by decide, fun _ => (by decide : 10 ^ 9 < 2 ^ 62 * 10 ^ 9)⟩

/-- A breaker that stays open for half a minute. -/
def briefConfig : Conf.Config :=
  { Conf.Config.empty with upstreams := [⟨"p", ⟨0, 0, 1, 1⟩, [⟨"http://b.test", 1⟩], "round_robin", none, some ⟨1, 30⟩⟩] }

end Pulsate.Http
