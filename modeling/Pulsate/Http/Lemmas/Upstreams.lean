import Pulsate.Config.Lemmas.Steps
import Pulsate.Http.Lemmas.Serve
import Pulsate.Http.Upstreams

/-!
# Lemmas about serving with pools
-/

namespace Pulsate.Http

open Cache (MemoryStore)
open Proxy (Forwarding Health Upstream Wire)
open Routing (CacheLayer Place)

/-! ## Visits -/

variable {gw : Gateway} {plane : Plane} {v : Visit} {place : Place} {up : Upstream} {req : Forwarding} {health : Health}

theorem collect_meets (gw : Gateway) (plane : Plane) (v : Visit) : collect gw (v.meets gw plane) = collect gw v.exchange := rfl

theorem forward_meets (plane : Plane) (hplace : gw.placeOf v.exchange.request = some place) (up : Upstream) (req : Forwarded) :
    (v.meets gw plane).world.forward up req =
      (up.forward v.wire req.forwarding (poolHealth place.route.handler plane.pools)).result := by
  rw [Visit.meets, hplace]

theorem dispatchOn_fst (plane : Plane) (hplace : gw.placeOf v.exchange.request = some place) (path : Str) :
    (dispatchOn gw v place.route.handler path plane.pools).1 = dispatch gw (v.meets gw plane) place.route.handler path := by
  have hforward := forward_meets plane hplace
  unfold dispatchOn dispatch
  cases hhandler : place.route.handler with
  | proxy upstream target =>
    rw [hhandler] at hforward
    dsimp only
    rw [collect_meets]
    cases collect gw v.exchange with
    | none => rfl
    | some body =>
      dsimp only
      unfold proxyOn proxy
      cases gw.pool (.proxy upstream target) with
      | none => rfl
      | some up => exact (hforward up _).symm
  | respond status body => rfl
  | redirect dest status => rfl
  | files root tryFiles => rfl
  | other name => rfl

/-- Serving with pools is serving in surroundings where the pools answer as they do. -/
theorem serve_eq_handle (gw : Gateway) (plane : Plane) (v : Visit) :
    (serve gw plane v).1 = (handle gw plane.state (v.meets gw plane)).1 ∧
      (serve gw plane v).2.state = (handle gw plane.state (v.meets gw plane)).2 := by
  have hagree := drive_agree (e := v.exchange) (t := ()) (fun route => dispatchOn gw v route.handler)
    (fun route path _ => (dispatch gw (v.meets gw plane) route.handler path, ())) plane.state
    (fun place path hplace => dispatchOn_fst plane hplace path)
  exact ⟨congrArg (Except.map _) hagree.1, hagree.2⟩

theorem dispatchOn_of_forwards (h : Forwards gw plane v place up req health) :
    dispatchOn gw v place.route.handler (Pipeline.rewritten place.route.middleware v.exchange.request.path) plane.pools =
      ((up.forward v.wire req health).result,
        setPoolHealth place.route.handler (up.forward v.wire req health).state plane.pools) := by
  obtain ⟨body, hbody, rfl⟩ := h.request
  have hpool := h.pool
  rw [h.health]
  cases hhandler : place.route.handler with
  | proxy upstream target =>
    rw [hhandler] at hpool
    simp only [dispatchOn, hbody, proxyOn, hpool]
  | _ =>
    rw [hhandler] at hpool
    cases hpool

theorem serve_of_forwards (h : Forwards gw plane v place up req health) :
    ∃ marked, Marked (Pipeline.egress place.route.middleware v.exchange.request.origin (up.forward v.wire req health).result) marked ∧
      (serve gw plane v).1 = .ok (finalize gw v.exchange.requestId marked) ∧
      (serve gw plane v).2.pools = setPoolHealth place.route.handler (up.forward v.wire req health).state plane.pools := by
  obtain ⟨marked, hmarked, hresp, hpools⟩ := answer_of_missed (s := plane.pools)
    (dispatchOn gw v place.route.handler (Pipeline.rewritten place.route.middleware v.exchange.request.path)) place.route
    plane.state.stores h.missed
  rw [dispatchOn_of_forwards h] at hmarked hpools
  refine ⟨marked, hmarked, ?_, ?_⟩
  · rw [serve, drive_of_letThrough _ _ h.route h.through]
    dsimp only
    rw [hresp]
    rfl
  · rw [serve, drive_of_letThrough _ _ h.route h.through]
    exact hpools

/-! ## Moderate times -/

section Moderate

open Cache (Mild)
open Conf (Moderate longestOpen longestWindow)

variable {state : State} {bound : Nat}

theorem mild_cacheLookup {store : MemoryStore} (h : Mild bound store) {now : Nat} (hnow : now + bound < 2 ^ 64 * 10 ^ 9)
    (config : Cache.CacheConfig) (req : Request) :
    (∃ hit, (cacheLookup config now req store).1 = .ok hit) ∧ Mild bound (cacheLookup config now req store).2 := by
  unfold cacheLookup
  split
  · obtain ⟨⟨hit, hhit⟩, hmild⟩ := h.lookup hnow (req.key config)
    exact ⟨⟨hit.map hitResponse, congrArg (Except.map (Option.map hitResponse)) hhit⟩, hmild⟩
  · exact ⟨⟨none, rfl⟩, h⟩

theorem mild_cacheStore {store : MemoryStore} (h : Mild bound store) {config : Cache.CacheConfig}
    (hswr : config.staleWhileRevalidate.nanos ≤ bound) (now : Nat) (order : Lib.Iteration Str Cache.Entry) (req : Request)
    (resp : Response) : Mild bound (cacheStore config now order req resp store).2 := by
  unfold cacheStore
  split
  · exact h.maybeStore hswr order _ _ _ _
  · exact h

theorem mild_update {stores : Nat → MemoryStore} (h : ∀ id, Mild bound (stores id)) {store : MemoryStore} (hstore : Mild bound store)
    (id : Nat) : ∀ j, Mild bound (Function.update stores id store j) := by
  intro j
  by_cases hj : j = id
  · subst hj
    simpa using hstore
  · simpa [hj] using h j

/-- A request neither panics in a lookup nor spoils the stores. -/
theorem mild_handle (h : ∀ id, Mild bound (state.stores id)) (hnow : e.lookupAt + bound < 2 ^ 64 * 10 ^ 9)
    (hlayers : ∀ place layer, gw.placeOf e.request = some place → place.route.cache = some layer →
      (layerConfig layer.config).staleWhileRevalidate.nanos ≤ bound) :
    (∃ resp, (handle gw state e).1 = .ok resp) ∧ ∀ id, Mild bound ((handle gw state e).2.stores id) := by
  cases hplace : gw.placeOf e.request with
  | none =>
    rw [handle, drive_of_none hplace]
    exact ⟨⟨_, rfl⟩, h⟩
  | some place =>
    cases hshort : (state.ingress place e).short with
    | some short =>
      refine ⟨⟨_, (handle_of_short hplace hshort).1⟩, fun id => ?_⟩
      show Mild bound ((step gw state e).stores id)
      rw [(handle_of_short hplace hshort).2]
      exact h id
    | none =>
      rw [handle, drive_of_letThrough _ _ hplace hshort]
      unfold answer
      cases hcache : place.route.cache with
      | none => exact ⟨⟨_, rfl⟩, h⟩
      | some layer =>
        obtain ⟨⟨hit, hhit⟩, hmild⟩ := mild_cacheLookup (h layer.store) hnow (layerConfig layer.config) e.request
        dsimp only
        generalize hlookup : cacheLookup (layerConfig layer.config) e.lookupAt e.request (state.stores layer.store) = looked at hhit hmild
        obtain ⟨result, store⟩ := looked
        cases hhit
        cases hit with
        | some hit => exact ⟨⟨_, rfl⟩, mild_update h hmild _⟩
        | none =>
          refine ⟨⟨_, rfl⟩, mild_update h ?_ _⟩
          exact mild_cacheStore hmild (hlayers place layer hplace hcache) _ _ _ _

theorem swr_le {config : Conf.Config} (hmoderate : Moderate config) (hgw : gw.toGateway = Cli.gatewayOf config) {place : Place}
    {layer : CacheLayer} {req : Request} (hplace : gw.placeOf req = some place) (hcache : place.route.cache = some layer) :
    (layerConfig layer.config).staleWhileRevalidate.nanos ≤ longestWindow * 10 ^ 9 := by
  rw [Gateway.placeOf, hgw] at hplace
  obtain ⟨site, hsite, hroute⟩ := Routing.Router.mem_of_place hplace
  obtain ⟨s, -, rfl⟩ := List.mem_map.mp hsite
  obtain ⟨def_, -, hbuilt⟩ := List.mem_filterMap.mp hroute
  obtain ⟨handler, -, hr⟩ := Option.map_eq_some_iff.mp hbuilt
  rw [← hr] at hcache
  obtain ⟨c, hc, hconfig⟩ := Conf.exists_of_layer hcache
  rw [layerConfig, hconfig]
  exact Conf.nanos_fromSecs_le (hmoderate.swr c hc)

theorem openFor_le {config : Conf.Config} (hmoderate : Moderate config) (hgw : gw.toGateway = Cli.gatewayOf config)
    {handler : Conf.Handler} {up : Proxy.Upstream} (hpool : gw.pool handler = some up) :
    up.breaker.openFor.nanos ≤ longestOpen * 10 ^ 9 := by
  have hdefault : Proxy.BreakerPolicy.default.openFor.nanos ≤ longestOpen * 10 ^ 9 := by decide
  rw [hgw] at hpool
  unfold Cli.Gateway.pool at hpool
  split at hpool
  · obtain ⟨u, hu, rfl⟩ := Conf.exists_of_pool hpool
    have hbreaker := hmoderate.openFor u hu
    simp only [Conf.buildUpstream, Proxy.Upstream.new]
    split
    · rename_i b hb
      exact Conf.nanos_fromSecs_le (hbreaker b hb)
    · exact hdefault
  · cases hpool
    exact hdefault
  · cases hpool

end Moderate

end Pulsate.Http
