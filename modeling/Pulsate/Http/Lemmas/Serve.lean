import Pulsate.Cache.Lemmas.Timed
import Pulsate.Http.Lemmas.Keys
import Pulsate.Http.Sharing
import Pulsate.Pipeline.Lemmas.Gate

/-!
# What a request does to the stores
-/

namespace Pulsate.Http

open Cache (CacheConfig Entry MemoryStore)
open Lib (run)
open Routing (CacheLayer Place Route)

variable {gw : Gateway} {state : State} {e : Exchange} {place : Place} {layer : CacheLayer} {entry : Entry} {key k : Str}

/-! ## The stages -/

section Drive

variable {σ τ : Type} {s : σ} {t : τ} {handler : Route → Str → σ → Response × σ}

theorem drive_of_none (hplace : gw.placeOf e.request = none) : drive gw handler state s e = (.ok notFound, state, s) := by
  rw [drive, hplace]

theorem drive_of_short {short : Response} (hplace : gw.placeOf e.request = some place)
    (h : (state.ingress place e).short = some short) :
    drive gw handler state s e = (.ok short, ⟨state.stores, Function.update state.limiters (place.site, place.index)
      (state.ingress place e).limiters⟩, s) := by
  rw [drive, hplace]
  dsimp only
  rw [h]

theorem drive_of_letThrough (handler : Route → Str → σ → Response × σ) (s : σ) (hplace : gw.placeOf e.request = some place)
    (h : LetThrough state place e) :
    (drive gw handler state s e) =
      ((answer place.route e (handler place.route (Pipeline.rewritten place.route.middleware e.request.path)) state.stores s).1,
        ⟨(answer place.route e (handler place.route (Pipeline.rewritten place.route.middleware e.request.path))
            state.stores s).2.1,
          Function.update state.limiters (place.site, place.index) (state.ingress place e).limiters⟩,
        (answer place.route e (handler place.route (Pipeline.rewritten place.route.middleware e.request.path))
          state.stores s).2.2) := by
  have hview : (state.ingress place e).view = _ := Pipeline.view_of_short_none h
  rw [LetThrough] at h
  rw [drive, hplace]
  dsimp only
  rw [h, hview]
  rfl

theorem answer_of_missed (handler : σ → Response × σ) (route : Route) (stores : Nat → MemoryStore)
    (hmissed : ∀ layer, route.cache = some layer →
      (cacheLookup (layerConfig layer.config) e.lookupAt e.request (stores layer.store)).1 = .ok none) :
    ∃ marked, Marked (Pipeline.egress route.middleware e.request.origin (handler s).1) marked ∧
      (answer route e handler stores s).1 = .ok marked ∧ (answer route e handler stores s).2.2 = (handler s).2 := by
  unfold answer
  cases hcache : route.cache with
  | none => exact ⟨_, .inl rfl, rfl, rfl⟩
  | some layer =>
    have hmiss := hmissed layer hcache
    dsimp only
    rcases hlookup : cacheLookup (layerConfig layer.config) e.lookupAt e.request (stores layer.store) with ⟨result, store⟩
    rw [hlookup] at hmiss
    cases hmiss
    refine ⟨_, ?_, rfl, rfl⟩
    unfold cacheStore
    split
    · exact .inr ⟨_, rfl⟩
    · exact .inr ⟨"BYPASS", rfl⟩

theorem drive_congr {handler' : Route → Str → σ → Response × σ}
    (h : ∀ place path, gw.placeOf e.request = some place → handler place.route path s = handler' place.route path s) :
    drive gw handler state s e = drive gw handler' state s e := by
  unfold drive
  cases hplace : gw.placeOf e.request with
  | none => rfl
  | some place =>
    dsimp only
    split
    · rfl
    · unfold answer
      rw [h place _ hplace]

theorem answer_agree {handler : σ → Response × σ} {handler' : τ → Response × τ} (route : Route) (stores : Nat → MemoryStore)
    (h : (handler s).1 = (handler' t).1) :
    (answer route e handler stores s).1 = (answer route e handler' stores t).1 ∧
      (answer route e handler stores s).2.1 = (answer route e handler' stores t).2.1 := by
  unfold answer
  cases route.cache with
  | none =>
    dsimp only
    rw [h]
    exact ⟨rfl, rfl⟩
  | some layer =>
    dsimp only
    rcases cacheLookup (layerConfig layer.config) e.lookupAt e.request (stores layer.store) with ⟨panic | hit, store⟩
    · exact ⟨rfl, rfl⟩
    · cases hit with
      | none =>
        dsimp only
        rw [h]
        exact ⟨rfl, rfl⟩
      | some hit => exact ⟨rfl, rfl⟩

/-- Handlers that answer alike are driven alike, whatever states they work on. -/
theorem drive_agree (handler : Route → Str → σ → Response × σ) (handler' : Route → Str → τ → Response × τ) (state : State)
    (h : ∀ place path, gw.placeOf e.request = some place → (handler place.route path s).1 = (handler' place.route path t).1) :
    (drive gw handler state s e).1 = (drive gw handler' state t e).1 ∧
      (drive gw handler state s e).2.1 = (drive gw handler' state t e).2.1 := by
  cases hplace : gw.placeOf e.request with
  | none =>
    rw [drive_of_none hplace, drive_of_none hplace]
    exact ⟨rfl, rfl⟩
  | some place =>
    cases hshort : (state.ingress place e).short with
    | some short =>
      rw [drive_of_short hplace hshort, drive_of_short hplace hshort]
      exact ⟨rfl, rfl⟩
    | none =>
      obtain ⟨hresp, hstores⟩ := answer_agree (e := e) place.route state.stores
        (h place (Pipeline.rewritten place.route.middleware e.request.path) hplace)
      rw [drive_of_letThrough _ _ hplace hshort, drive_of_letThrough _ _ hplace hshort, hresp, hstores]
      exact ⟨rfl, rfl⟩

end Drive

/-! ## Answers -/

/-- What a route answers a request that its steps have let through. -/
def answered (gw : Gateway) (route : Route) (e : Exchange) (stores : Nat → MemoryStore) :
    Except Cache.Panic Response × (Nat → MemoryStore) :=
  match answer route e (fun _ => (dispatch gw e route.handler (Pipeline.rewritten route.middleware e.request.path), ())) stores () with
  | (resp, stores, _) => (resp, stores)

section Answer

variable {stores : Nat → MemoryStore}

theorem answered_of_uncached (h : place.route.cache = none) :
    answered gw place.route e stores = (.ok (made gw place.route e), stores) := by
  rw [answered, answer, h]
  rfl

theorem answered_of_not_allowed (h : place.route.cache = some layer)
    (hallowed : e.request.allowsCache (layerConfig layer.config) = false) :
    answered gw place.route e stores = (.ok ((made gw place.route e).insertStr xCache "BYPASS"), stores) := by
  rw [answered, answer, h]
  simp only [cacheLookup, cacheStore, hallowed, Bool.false_eq_true, ↓reduceIte, Function.update_eq_self]
  rfl

theorem answered_of_allowed (gw : Gateway) (stores : Nat → MemoryStore) (h : place.route.cache = some layer)
    (hallowed : e.request.allowsCache (layerConfig layer.config))
    (hkey : e.request.key (layerConfig layer.config) = key) :
    ∃ store', (answered gw place.route e stores).2 = Function.update stores layer.store store' ∧
      match Cache.lookup e.lookupAt key (stores layer.store) with
      | (.error panic, store) => (answered gw place.route e stores).1 = .error panic ∧ store' = store
      | (.ok (some hit), store) => (answered gw place.route e stores).1 = .ok (hitResponse hit) ∧ store' = store
      | (.ok none, store) =>
        (∃ mark, (answered gw place.route e stores).1 = .ok ((made gw place.route e).insertStr xCache mark)) ∧
        store' = (Cache.maybeStore (layerConfig layer.config) e.storeAt e.order key (made gw place.route e).status
          (made gw place.route e).headers (made gw place.route e).body store).2 := by
  subst hkey
  rw [answered, answer, h]
  simp only [cacheLookup, cacheStore, hallowed, ↓reduceIte]
  rcases Cache.lookup e.lookupAt (e.request.key (layerConfig layer.config)) (stores layer.store) with ⟨panic | hit, store⟩
  · exact ⟨store, rfl, rfl, rfl⟩
  · cases hit with
    | some hit => exact ⟨store, rfl, rfl, rfl⟩
    | none => exact ⟨_, rfl, ⟨_, rfl⟩, rfl⟩

end Answer

theorem cacheLookup_hit {config : CacheConfig} {now : Nat} {req : Request} {store : MemoryStore} {resp : Response}
    (h : (cacheLookup config now req store).1 = .ok (some resp)) : ∃ hit, resp = hitResponse hit := by
  unfold cacheLookup at h
  split at h
  · rcases hlookup : Cache.lookup now (req.key config) store with ⟨panic | hit, store'⟩
    all_goals
      rw [hlookup] at h
    · cases h
    · cases hit with
      | none => cases h
      | some hit =>
        cases h
        exact ⟨hit, rfl⟩
  · cases h

theorem handle_of_letThrough (hplace : gw.placeOf e.request = some place) (h : LetThrough state place e) :
    (handle gw state e).1 = (answered gw place.route e state.stores).1.map (finalize gw e.requestId) ∧
    (step gw state e).stores = (answered gw place.route e state.stores).2 := by
  rw [step, handle, drive_of_letThrough _ _ hplace h]
  exact ⟨rfl, rfl⟩

theorem handle_of_short {short : Response} (hplace : gw.placeOf e.request = some place)
    (h : (state.ingress place e).short = some short) :
    (handle gw state e).1 = .ok (finalize gw e.requestId short) ∧ (step gw state e).stores = state.stores := by
  rw [step, handle, drive_of_short hplace h]
  exact ⟨rfl, rfl⟩

theorem handle_of_answeredFrom (h : AnsweredFrom gw state e place layer key entry) :
    (handle gw state e).1 = .ok (finalize gw e.requestId (hitResponse (Cache.hitOf e.lookupAt entry))) := by
  rw [(handle_of_letThrough h.route h.through).1]
  obtain ⟨store', -, hcases⟩ := answered_of_allowed gw state.stores h.cache h.allowed h.under
  have hhit : (Cache.lookup e.lookupAt key (state.stores layer.store)).1 = .ok (some (Cache.hitOf e.lookupAt entry)) :=
    Cache.lookup_hit_iff.mpr ⟨entry, h.visible, h.servable, rfl⟩
  rcases hlookup : Cache.lookup e.lookupAt key (state.stores layer.store) with ⟨result, store⟩
  rw [hlookup] at hcases hhit
  cases hhit
  rw [hcases.1]
  rfl

theorem answered_cases {resp : Response} (hplace : gw.placeOf e.request = some place) (hthrough : LetThrough state place e)
    (h : (answered gw place.route e state.stores).1 = .ok resp) :
    Marked (made gw place.route e) resp ∨
    ∃ layer key entry, AnsweredFrom gw state e place layer key entry ∧ resp = hitResponse (Cache.hitOf e.lookupAt entry) := by
  cases hcache : place.route.cache with
  | none =>
    rw [answered_of_uncached hcache] at h
    cases h
    exact .inl (.inl rfl)
  | some layer =>
    cases hallowed : e.request.allowsCache (layerConfig layer.config) with
    | false =>
      rw [answered_of_not_allowed hcache hallowed] at h
      cases h
      exact .inl (.inr ⟨_, rfl⟩)
    | true =>
      obtain ⟨store', -, hcases⟩ := answered_of_allowed gw state.stores hcache hallowed rfl
      rcases hlookup : Cache.lookup e.lookupAt (e.request.key (layerConfig layer.config)) (state.stores layer.store) with
        ⟨panic | hit, store⟩
      · rw [hlookup] at hcases
        cases h.symm.trans hcases.1
      · rw [hlookup] at hcases
        cases hit with
        | none =>
          obtain ⟨⟨mark, hmark⟩, -⟩ := hcases
          cases h.symm.trans hmark
          exact .inl (.inr ⟨mark, rfl⟩)
        | some hit =>
          cases h.symm.trans hcases.1
          obtain ⟨entry, hvisible, hservable, rfl⟩ := Cache.lookup_hit_iff.mp (congrArg Prod.fst hlookup)
          exact .inr ⟨layer, _, entry, ⟨⟨hplace, hcache, hthrough, hallowed, rfl⟩, hvisible, hservable⟩, rfl⟩

/-- What is sent to a request of a route: a refusal, the answer to a preflight, a response made for it or one from the cache. -/
theorem handle_cases {resp : Response} (hplace : gw.placeOf e.request = some place) (h : (handle gw state e).1 = .ok resp) :
    ∃ sent, resp = finalize gw e.requestId sent ∧
      (Pipeline.Rejected e.clock place.route.middleware (state.limiters (place.site, place.index)) (requestView e) ∧
        Pipeline.Refusal sent ∨
      (∃ cors ∈ Pipeline.corsSteps place.route.middleware, sent = Pipeline.preflight cors e.request.origin) ∨
      Marked (made gw place.route e) sent ∨
      ∃ layer key entry, AnsweredFrom gw state e place layer key entry ∧
        sent = hitResponse (Cache.hitOf e.lookupAt entry)) := by
  rcases Pipeline.ingress_cases e.clock place.route.middleware (state.limiters (place.site, place.index)) (requestView e) with
    ⟨hrejected, short, hrefusal, hshort⟩ | ⟨cors, hcors, -, hshort⟩ | ⟨hthrough, -⟩
  · cases h.symm.trans (handle_of_short hplace hshort).1
    exact ⟨short, rfl, .inl ⟨hrejected, hrefusal⟩⟩
  · cases h.symm.trans (handle_of_short hplace hshort).1
    exact ⟨_, rfl, .inr (.inl ⟨cors, hcors, rfl⟩)⟩
  · rw [(handle_of_letThrough hplace hthrough).1] at h
    cases hanswered : (answered gw place.route e state.stores).1 with
    | error panic =>
      rw [hanswered] at h
      cases h
    | ok sent =>
      rw [hanswered] at h
      cases h
      exact ⟨sent, rfl, .inr (.inr (answered_cases hplace hthrough hanswered))⟩

/-! ## Entries -/

theorem visible_of_visible_lookup {store : MemoryStore} (now : Nat) (k : Str)
    (h : (Cache.lookup now k store).2.visible key = some entry) : store.visible key = some entry := by
  rcases ((Cache.isSlot_visible key).step_iff store ⟨now, .lookup k⟩ entry).mp h with hput | ⟨-, hvis, -⟩
  · cases hput
  · exact hvis

theorem visible_of_reaches {id : Nat} (hreach : Reaches gw state e place layer k)
    (h : ((answered gw place.route e state.stores).2 id).visible key = some entry) :
    (state.stores id).visible key = some entry ∨ ∃ place layer, Leaves gw state e place layer key entry ∧ layer.store = id := by
  obtain ⟨store', hstores, hcases⟩ := answered_of_allowed gw state.stores hreach.cache hreach.allowed hreach.under
  rw [hstores, Function.update_apply] at h
  split at h
  · rename_i hid
    subst hid
    rcases hlookup : Cache.lookup e.lookupAt k (state.stores layer.store) with ⟨panic | hit, store⟩
    all_goals
      have hbefore : store.visible key = some entry → (state.stores layer.store).visible key = some entry := by
        intro hvis
        refine visible_of_visible_lookup e.lookupAt k ?_
        rw [hlookup]
        exact hvis
      rw [hlookup] at hcases
    · obtain ⟨-, rfl⟩ := hcases
      exact .inl (hbefore h)
    · cases hit with
      | some hit =>
        obtain ⟨-, rfl⟩ := hcases
        exact .inl (hbefore h)
      | none =>
        obtain ⟨-, rfl⟩ := hcases
        rcases ((Cache.isSlot_visible key).step_iff store ⟨e.storeAt, .maybeStore (layerConfig layer.config) e.order k
          (made gw place.route e).status (made gw place.route e).headers (made gw place.route e).body⟩ entry).mp h with
          hput | ⟨-, hvis, -⟩
        · obtain ⟨_, _, _, _, _, ttl, hcall, hstored, httl, rfl⟩ := Cache.storedBy_eq_some.mp hput
          cases hcall
          exact .inr ⟨place, layer, ⟨hreach, store, ttl, hlookup, hstored, httl, rfl⟩, rfl⟩
        · exact .inl (hbefore hvis)
  · exact .inl h

/-- Where an entry comes from: it was there, or the request has left it. -/
theorem visible_step {id : Nat} (h : ((step gw state e).stores id).visible key = some entry) :
    (state.stores id).visible key = some entry ∨ ∃ place layer, Leaves gw state e place layer key entry ∧ layer.store = id := by
  cases hplace : gw.placeOf e.request with
  | none =>
    rw [step, handle, drive_of_none hplace] at h
    exact .inl h
  | some place =>
    cases hshort : (state.ingress place e).short with
    | some short =>
      rw [(handle_of_short hplace hshort).2] at h
      exact .inl h
    | none =>
      rw [(handle_of_letThrough hplace hshort).2] at h
      cases hcache : place.route.cache with
      | none =>
        rw [answered_of_uncached hcache] at h
        exact .inl h
      | some layer =>
        cases hallowed : e.request.allowsCache (layerConfig layer.config) with
        | false =>
          rw [answered_of_not_allowed hcache hallowed] at h
          exact .inl h
        | true => exact visible_of_reaches ⟨hplace, hcache, hshort, hallowed, rfl⟩ h

/-! ## Runs -/

theorem visible_run {es : List Exchange} {id : Nat} (h : ((run (step gw) .new es).stores id).visible key = some entry) :
    ∃ pre e post place layer, es = pre ++ e :: post ∧ Leaves gw (run (step gw) .new pre) e place layer key entry ∧
      layer.store = id := by
  induction es using List.reverseRecOn with
  | nil => cases h
  | append_singleton es e ih =>
    rw [Lib.run_concat] at h
    rcases visible_step h with hbefore | ⟨place, layer, hleaves, hid⟩
    · obtain ⟨pre, e', post, place, layer, rfl, hleaves⟩ := ih hbefore
      exact ⟨pre, e', post ++ [e], place, layer, by simp, hleaves⟩
    · exact ⟨es, e, [], place, layer, rfl, hleaves, hid⟩

/-- Requests that ask for the same are routed alike. -/
theorem placeOf_of_sameTarget {r₁ r₂ : Request} (h : SameTarget r₁ r₂) : gw.placeOf r₁ = gw.placeOf r₂ := by
  have hpath : ∀ r : Request, '?' ∉ r.path := by
    intro r hmem
    have hchar := List.all_eq_true.mp r.pathValid '?' hmem
    simp at hchar
  have htarget : ∀ r : Request, ∃ t : Str, r.target = r.path ++ t ∧ ∀ c ∈ t.head?, c = '?' := by
    intro r
    unfold Request.target
    cases r.query with
    | none => exact ⟨[], by simp, by simp⟩
    | some q => exact ⟨'?' :: q, rfl, by simp⟩
  obtain ⟨t₁, ht₁, hsep₁⟩ := htarget r₁
  obtain ⟨t₂, ht₂, hsep₂⟩ := htarget r₂
  have heq := h.target
  rw [ht₁, ht₂] at heq
  have hsame := (Lib.append_inj_of_sep (hpath r₁) (hpath r₂) hsep₁ hsep₂ heq).1
  rw [Gateway.placeOf, Gateway.placeOf, h.host, h.method, hsame]

theorem leaves_of_answeredFrom {es : List Exchange} (h : AnsweredFrom gw (run (step gw) .new es) e place layer key entry) :
    ∃ pre first post, es = pre ++ first :: post ∧ Leaves gw (run (step gw) .new pre) first place layer key entry := by
  obtain ⟨pre, first, post, place', layer', rfl, hleaves, -⟩ := visible_run h.visible
  have htarget := (sameTarget_of_key (hleaves.under.trans h.under.symm)).1
  have hplace := (hleaves.route.symm.trans (placeOf_of_sameTarget htarget)).trans h.route
  cases hplace
  have hlayer := hleaves.cache.symm.trans h.cache
  cases hlayer
  exact ⟨pre, first, post, rfl, hleaves⟩

theorem mayServe_of_leaves {first : Exchange} {state' : State} (hleaves : Leaves gw state first place layer key entry)
    (h : AnsweredFrom gw state' e place layer key entry) : MayServe gw place layer first e := by
  obtain ⟨-, ttl, -, -, httl, -⟩ := hleaves.stored
  exact ⟨hleaves.route, hleaves.allowed, h.allowed, hleaves.under.trans h.under.symm, by simp [httl]⟩

end Pulsate.Http
