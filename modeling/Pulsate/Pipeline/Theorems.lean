import Pulsate.Config.Lemmas.Steps
import Pulsate.Lib.Except
import Pulsate.Pipeline.Lemmas.Cors

/-!
# Results about pipelines
-/

namespace Pulsate.Pipeline

open List Http
open Conf (Compiled compile buildRouter)
open Http (HeaderMap HeaderName HeaderValue Response)
open Routing (Mw Route SiteRoutes)

/-! ## Credentials and open origins -/

theorem neverMixed_iff_shielded {pipeline : List Mw} (horigin : Neutral .accessControlAllowOrigin pipeline)
    (hcredentials : Neutral .accessControlAllowCredentials pipeline)
    (hvalid : ∀ cors ∈ corsSteps pipeline, cors.credentials → ¬ cors.Open) :
    NeverMixed pipeline ↔ Shielded (corsSteps pipeline) := by
  constructor
  · rintro h pre star post hsteps hopen cors hcors hcred origin hlisted hvisible
    by_contra hnone
    -- a request from that origin, and an empty response
    obtain ⟨value, -, hvis, rfl⟩ := fromStr_of_visible hvisible
    have hget : HeaderMap.getStr [(.origin, value)] .origin = some value.text :=
      getStr_eq_some.mpr ⟨value, rfl, hvis, rfl⟩
    refine h.egress [(.origin, value)] (.new 200) ⟨rfl, rfl⟩ ?_
    rw [hget, mixed_egress_iff horigin hcredentials hvis ⟨rfl, rfl⟩]
    refine ⟨⟨pre, star, post, hsteps, hopen, fun first hfirst haccepts => hnone ⟨first, hfirst, haccepts⟩⟩, cors, ?_, ?_⟩
    · rw [hsteps]
      exact mem_append_right _ (mem_cons_of_mem _ hcors)
    · exact ⟨.inr hlisted, hcred⟩
  · intro h
    refine ⟨fun headers resp hresp hmixed => ?_, fun clock limiters req resp hshort => ?_⟩
    · cases hget : headers.getStr .origin with
      | none =>
        have hnone : (corsSteps pipeline).findSome? (fun cors => (originAllowed cors none).bind HeaderValue.fromStr) = none :=
          findSome?_eq_none_iff.mpr (fun _ _ => rfl)
        rw [hget, Mixed, getAll_origin_egress horigin, hnone, hresp.1] at hmixed
        exact absurd hmixed.1 not_mem_nil
      | some origin =>
        obtain ⟨value, -, hvis, rfl⟩ := getStr_eq_some.mp hget
        rw [hget, mixed_egress_iff horigin hcredentials hvis hresp] at hmixed
        obtain ⟨⟨pre, star, post, hsteps, hopen, hpre⟩, cors, hcors, haccepts, hcred⟩ := hmixed
        have hlisted := haccepts.resolve_left (hvalid cors hcors hcred)
        -- the step with credentials accepts the origin, so it stands behind the open one
        rw [hsteps, mem_append, mem_cons] at hcors
        rcases hcors with hcors | rfl | hcors
        · exact hpre cors hcors haccepts
        · exact hvalid cors (hsteps ▸ mem_append_right _ mem_cons_self) hcred hopen
        · obtain ⟨first, hfirst, hfaccepts⟩ := h pre star post hsteps hopen cors hcors hcred _ hlisted (visible_text hvis)
          exact hpre first hfirst hfaccepts
    · rcases ingress_cases clock pipeline limiters req with ⟨-, _, hrefusal, heq⟩ | ⟨cors, hcors, -, heq⟩ | ⟨heq, -⟩
      · cases hshort.symm.trans heq
        exact not_mixed_of_refusal hrefusal
      · cases hshort.symm.trans heq
        exact not_mixed_preflight (hvalid cors hcors)
      · cases hshort.symm.trans heq

/-- In a route of an accepted text, every origin is never allowed with credentials exactly if each origin that a step with
credentials lists behind an open step is accepted by a step in front of that one. -/
theorem neverMixed_iff (env : Str → Option Str) (text : Str) (g : Nat) (compiled : Compiled) (site : SiteRoutes) (r : Route)
    (h : compile env text g = .ok compiled) (hsite : site ∈ (buildRouter compiled.config).sites) (hr : r ∈ site.routes) :
    NeverMixed r.middleware ↔ Shielded (corsSteps r.middleware) := by
  have hset : ∀ set remove, .headers set remove ∉ r.middleware :=
    fun set remove hmem => (Conf.middleware_of_compile h hsite hr hmem).1 set remove rfl
  refine neverMixed_iff_shielded (fun set remove hmem => absurd hmem (hset set remove))
    (fun set remove hmem => absurd hmem (hset set remove)) (fun cors hcors hcred hopen => ?_)
  obtain ⟨mw, hmw, hstep⟩ := mem_filterMap.mp hcors
  refine (Conf.middleware_of_compile h hsite hr hmw).2 cors.origins cors.methods ?_ hopen
  rw [corsStep_eq_some hstep, hcred]

/-- An open step and then one with credentials. -/
def mixedText : Str := "site a.test \x7b\n  route /* ~> cors(origins=[\"*\"]) ~> " ++
  "cors(origins=[\"https://a.test\"], credentials=true) ~> respond(status=200)\n\x7d\n"

/-- The router of a text has a route with these steps. -/
def hasRoute (text : Str) (middleware : List Mw) : Bool :=
  (compile (fun _ => none) text 0).toOption.any (fun compiled => (buildRouter compiled.config).sites.any (fun site =>
    site.routes.any (fun r => r.middleware = middleware)))

theorem of_hasRoute {text : Str} {middleware : List Mw} (h : hasRoute text middleware) :
    ∃ compiled site r, compile (fun _ => none) text 0 = .ok compiled ∧ site ∈ (buildRouter compiled.config).sites ∧
      r ∈ site.routes ∧ r.middleware = middleware := by
  obtain ⟨compiled, hcompile, hany⟩ := (Option.any_eq_true _ _).mp h
  obtain ⟨site, hsite, hany⟩ := any_eq_true.mp hany
  obtain ⟨r, hr, hmiddleware⟩ := any_eq_true.mp hany
  exact ⟨compiled, site, r, Lib.toOption_eq_some.mp hcompile, hsite, hr, of_decide_eq_true hmiddleware⟩

theorem mixed_credentials : ∃ compiled site r, compile (fun _ => none) mixedText 0 = .ok compiled ∧
    site ∈ (buildRouter compiled.config).sites ∧ r ∈ site.routes ∧
    Mixed (egress r.middleware (some "https://a.test") (.new 200)) := by
  have hroute : hasRoute mixedText [.cors ["*"] [] false, .cors ["https://a.test"] [] true] := by
    decide +kernel
  obtain ⟨compiled, site, r, hcompile, hsite, hr, hmiddleware⟩ := of_hasRoute hroute
  refine ⟨compiled, site, r, hcompile, hsite, hr, ?_⟩
  rw [hmiddleware]
  unfold Mixed
  decide

/-- The same two behind one that accepts the origin without credentials. -/
def shieldedText : Str := "site a.test \x7b\n  route /* ~> cors(origins=[\"https://a.test\"]) ~> cors(origins=[\"*\"]) ~> " ++
  "cors(origins=[\"https://a.test\"], credentials=true) ~> respond(status=200)\n\x7d\n"

theorem neverMixed_iff_three : ∃ compiled site r, compile (fun _ => none) shieldedText 0 = .ok compiled ∧
    site ∈ (buildRouter compiled.config).sites ∧ r ∈ site.routes ∧ NeverMixed r.middleware := by
  have hroute : hasRoute shieldedText
      [.cors ["https://a.test"] [] false, .cors ["*"] [] false, .cors ["https://a.test"] [] true] := by
    decide +kernel
  obtain ⟨compiled, site, r, hcompile, hsite, hr, hmiddleware⟩ := of_hasRoute hroute
  refine ⟨compiled, site, r, hcompile, hsite, hr, ?_⟩
  rw [neverMixed_iff (fun _ => none) shieldedText 0 compiled site r hcompile hsite hr, hmiddleware]
  rintro (_ | ⟨first, _ | ⟨second, _ | ⟨third, pre⟩⟩⟩) star post hsteps hopen cors hcors hcred origin horigin -
  · cases hsteps
    exact absurd hopen (by decide)
  · cases hsteps
    cases mem_singleton.mp hcors
    exact ⟨_, mem_cons_self, .inr horigin⟩
  · cases hsteps
    cases hcors
  · have hlen : 3 = _ := congrArg List.length hsteps
    simp at hlen

/-! ## Prefixes -/

/-- A prefix is taken off along the segments exactly if, where the path goes on behind it, the two meet in one slash. -/
theorem strips_iff (now : Nat) (strip : Str) (buckets : Waf.Buckets) (req : RequestView) :
    (∃ req', ingressStep now (.stripPrefix strip) buckets req = (.ok req', buckets) ∧ Strips strip req.path req'.path) ↔
      ∀ rest, req.path = strip ++ rest → rest = [] ∨ Meets strip rest := by
  by_cases hpre : strip <+: req.path
  · obtain ⟨rest, hrest⟩ := hpre
    have hstep : ingressStep now (.stripPrefix strip) buckets req = (.ok { req with path := normalizePath rest }, buckets) := by
      rw [ingressStep, ← hrest, Str.stripPrefix_append]
    have hprop : (∃ req', ingressStep now (.stripPrefix strip) buckets req = (.ok req', buckets) ∧ Strips strip req.path req'.path) ↔
        Strips strip (strip ++ rest) (normalizePath rest) := by
      rw [hstep, ← hrest]
      simp
    have hcond : (∀ rest, req.path = strip ++ rest → rest = [] ∨ Meets strip rest) ↔ rest = [] ∨ Meets strip rest := by
      rw [← hrest]
      simp
    rw [hprop, hcond, normalizePath]
    by_cases hnil : rest = []
    · subst hnil
      simpa using strips_self strip
    · rw [if_neg hnil, or_iff_right hnil]
      split
      · rename_i hslash
        exact strips_slash_iff hslash
      · rename_i hslash
        exact strips_cons_iff hnil hslash
  · have hnone : req.path.stripPrefix strip = none :=
      Option.eq_none_iff_forall_ne_some.mpr (fun rest h => hpre ⟨rest, isPrefixOf?_eq_some_iff_append_eq.mp h⟩)
    refine iff_of_true ⟨req, by rw [ingressStep, hnone], fun h => absurd rfl h, fun h => absurd h hpre⟩ ?_
    rintro rest hrest
    exact absurd ⟨rest, hrest.symm⟩ hpre

/-- A prefix without a slash at its end is also taken off a segment that only begins like its last one. -/
theorem segment_cut : ∃ req', ingressStep 0 (.stripPrefix "/api") ∅ ⟨"GET", "/apix", "/apix", none, none⟩ = (.ok req', ∅) ∧
    req'.path = "/x" ∧ ¬ Strips "/api" "/apix" req'.path := by
  refine ⟨⟨"GET", "/x", "/apix", none, none⟩, rfl, rfl, fun h => ?_⟩
  exact absurd (h.parts (by decide)) (by decide)

end Pulsate.Pipeline
