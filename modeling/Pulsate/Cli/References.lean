import Pulsate.Cli.Up
import Pulsate.Config.Lemmas.Steps
import Pulsate.Lib.Except
import Pulsate.Router.Lemmas.Best

/-!
# What references resolve to

Validation keeps the names of all kinds in one list, while the tables are looked up by kind.
-/

namespace Pulsate.Cli

open Conf List Lib
open Routing (Mw)

variable {s : Flow.Step} {upstream target : Option Str}

/-! ## Resolution -/

/-- A `waf` step with a reference. -/
def namesWaf (s : Flow.Step) : Bool := s.name.node = "waf" ∧ (firstRef s.args).isSome

/-- A proxy has a registered upstream or a URL; with a reference it goes by that and ignores a URL beside it. -/
def HasTarget (config : Config) : Handler → Prop
  | .proxy (some name) _ => ∃ pool, (buildUpstreams config).get? name = some pool
  | .proxy none target => ∃ url, target = some url
  | _ => True

/-- In the tables of a document every reference leads to what it asks for. -/
structure Resolved (ast : Flow.Ast) (config : Config) : Prop where
  proxies : ∀ site ∈ (buildRouter config).sites, ∀ r ∈ site.routes, HasTarget config r.handler
  wafs : ∀ rt ∈ siteRoutes ast, ∀ r, builtRoute config rt = some r →
    List.Forall₂ (fun s m => Corresponds ast s (.mw m)) (rt.steps.filter namesWaf) (r.middleware.filter isWaf)
  caches : ∀ rt ∈ siteRoutes ast, ∀ r, builtRoute config rt = some r → ∀ s ∈ rt.steps, ∀ name, Asks s (.cache name) →
    ∃ layer, r.cache = some layer ∧ Corresponds ast s (.cache layer)
  served : ∀ req r pool, (gatewayOf config).serve req = some (r, pool) →
    ∀ upstream target, r.handler = .proxy upstream target → ∃ p, pool = some p

/-- Every reference names a definition of the kind its step uses. -/
structure RightKinds (ast : Flow.Ast) : Prop where
  proxies : ∀ rt ∈ siteRoutes ast, ∀ s ∈ rt.steps, s.name.node = "proxy" →
    (firstRef s.args = none ∧ ∃ a ∈ s.args, ∃ url, (argValue a).node = .str url) ∨
      ∃ name ∈ upstreamNames ast, firstRef s.args = some name
  wafs : ∀ rt ∈ siteRoutes ast, ∀ s ∈ rt.steps, ∀ name, Asks s (.waf name) → name ∈ wafNames ast
  caches : ∀ rt ∈ siteRoutes ast, ∀ s ∈ rt.steps, ∀ name, Asks s (.cache name) → name ∈ cacheNames ast ∧
    ∀ t ∈ rt.steps, ∀ other, Asks t (.cache other) → other = name

variable {env : Str → Option Str} {ast : Flow.Ast} {rt : Flow.Route} {r : Routing.Route}

/-! ## Proxies -/

theorem buildHandler_eq_proxy :
    buildHandler s = .proxy upstream target ↔ s.name.node = "proxy" ∧ firstRef s.args = upstream ∧
      s.args.findSome? (fun a => asStr (argValue a).node) = target := by
  constructor
  · intro h
    unfold buildHandler at h
    split at h
    · cases h
    split at h
    · cases h
    split at h
    · cases h
    split at h
    · rename_i hname
      cases h
      exact ⟨hname, rfl, rfl⟩
    · cases h
  · rintro ⟨hname, rfl, rfl⟩
    have h1 : s.name.node ≠ "files" := by rw [hname]; decide
    have h2 : s.name.node ≠ "respond" := by rw [hname]; decide
    have h3 : s.name.node ≠ "redirect" := by rw [hname]; decide
    rw [buildHandler, if_neg h1, if_neg h2, if_neg h3, if_pos hname]
    rfl

theorem exists_url_iff {args : List Flow.Arg} : (∃ url, args.findSome? (fun a => asStr (argValue a).node) = some url) ↔
    ∃ a ∈ args, ∃ url, (argValue a).node = .str url := by
  rw [← Option.isSome_iff_exists, findSome?_isSome_iff]
  refine exists_congr (fun a => and_congr_right (fun _ => ?_))
  cases (argValue a).node <;> simp [asStr]

theorem registered_iff {name : Str} :
    (∃ pool, (buildUpstreams (lower env ast).1).get? name = some pool) ↔ name ∈ upstreamNames ast := by
  have hnames : (lower env ast).1.upstreams.map (·.name) = upstreamNames ast := upstreams_names
  rw [← Lib.OrdMap.mem_keys_iff, buildUpstreams_eq, Lib.OrdMap.mem_keys_insertAll_empty, ← hnames]
  simp only [mem_map, Prod.mk.injEq]
  constructor
  · rintro ⟨pool, u, hu, hname, -⟩
    exact ⟨u, hu, hname⟩
  · rintro ⟨u, hu, hname⟩
    exact ⟨_, u, hu, hname, rfl⟩

theorem handler_eq_proxy {config : Config} (hends : EndsOnce rt) (hr : builtRoute config rt = some r) :
    r.handler = .proxy upstream target ↔ ∃ s ∈ rt.steps, s.name.node = "proxy" ∧
      firstRef s.args = upstream ∧ s.args.findSome? (fun a => asStr (argValue a).node) = target := by
  obtain ⟨i, s, hi, hs, hhandler⟩ := handler_builtRoute hr
  rw [hhandler, buildHandler_eq_proxy]
  constructor
  · exact fun h => ⟨s, mem_of_getElem? hs, h⟩
  · rintro ⟨t, ht, hname, hargs⟩
    obtain ⟨j, hj, htj⟩ := terminalIdx_of_handler hends ht (by rw [hname]; decide)
    cases hi.symm.trans hj
    cases hs.symm.trans htj
    exact ⟨hname, hargs⟩

theorem hasTarget_iff (hends : EndsOnce rt) (hr : builtRoute (lower env ast).1 rt = some r) :
    HasTarget (lower env ast).1 r.handler ↔ ∀ s ∈ rt.steps, s.name.node = "proxy" →
      (firstRef s.args = none ∧ ∃ a ∈ s.args, ∃ url, (argValue a).node = .str url) ∨
        ∃ name ∈ upstreamNames ast, firstRef s.args = some name := by
  constructor
  · intro h s hs hname
    rw [(handler_eq_proxy hends hr).mpr ⟨s, hs, hname, rfl, rfl⟩] at h
    cases href : firstRef s.args with
    | none =>
      rw [href] at h
      exact .inl ⟨rfl, exists_url_iff.mp h⟩
    | some name =>
      rw [href] at h
      exact .inr ⟨name, registered_iff.mp h, rfl⟩
  · intro h
    cases hhandler : r.handler with
    | proxy upstream target =>
      obtain ⟨s, hs, hname, rfl, rfl⟩ := (handler_eq_proxy hends hr).mp hhandler
      rcases h s hs hname with ⟨hnone, hurl⟩ | ⟨name, hdef, hsome⟩
      · rw [hnone]
        exact exists_url_iff.mpr hurl
      · rw [hsome]
        exact registered_iff.mpr hdef
    | files root tryFiles => trivial
    | respond status body => trivial
    | redirect dest status => trivial
    | other name => trivial

/-! ## Firewalls -/

theorem middleware_filter_isWaf (l : List Mw) : l.filter isWaf = (l.filter (fun m => !isIp m)).filter isWaf := by
  rw [filter_filter]
  refine filter_congr (fun m _ => ?_)
  cases m <;> rfl

theorem namesWaf_iff : namesWaf s ↔ ∃ name, Asks s (.waf name) := by
  rw [namesWaf, decide_eq_true_eq, Option.isSome_iff_exists]
  constructor
  · rintro ⟨hname, name, harg⟩
    exact ⟨name, .waf hname harg⟩
  · rintro ⟨name, hasks⟩
    cases hasks with
    | waf hname harg => exact ⟨hname, name, harg⟩

theorem waf_of_corresponds {name : Str} {m : Mw} (hasks : Asks s (.waf name)) (h : Corresponds ast s (.mw m)) :
    isWaf m ∧ name ∈ wafNames ast := by
  cases h with
  | waf block asks =>
    cases hasks.unique asks
    exact ⟨rfl, mem_wafNames.mpr ⟨_, block, rfl⟩⟩
  | stripPrefix asks => cases hasks.unique asks
  | cors asks => cases hasks.unique asks
  | rateLimit asks => cases hasks.unique asks

theorem wafs_iff (hr : builtRoute (lower env ast).1 rt = some r) :
    List.Forall₂ (fun s m => Corresponds ast s (.mw m)) (rt.steps.filter namesWaf) (r.middleware.filter isWaf) ↔
      ∀ s ∈ rt.steps, ∀ name, Asks s (.waf name) → name ∈ wafNames ast := by
  rw [middleware_filter_isWaf, middleware_builtRoute hr, filter_filterMap, forall₂_filterMap_iff]
  · refine forall₂_congr (fun s hs => ?_)
    rw [namesWaf_iff]
    constructor
    · intro h name hasks
      obtain ⟨m, hm⟩ := h ⟨name, hasks⟩
      exact (waf_of_corresponds hasks (corresponds_of_guardMw (Option.filter_eq_some_iff.mp hm).1)).2
    · rintro h ⟨name, hasks⟩
      obtain ⟨b, hb, rfl⟩ := mem_wafNames.mp (h name hasks)
      obtain ⟨m, hm⟩ : ∃ m, (buildMiddleware s).bind (guardMw (lower env ast).1) = some m :=
        guardMw_of_corresponds (.waf hb hasks)
      exact ⟨m, Option.filter_eq_some_iff.mpr ⟨hm, (waf_of_corresponds hasks (corresponds_of_guardMw hm)).1⟩⟩
  · intro s hs m hm
    obtain ⟨hm, hwaf⟩ := Option.filter_eq_some_iff.mp hm
    have hcorr := corresponds_of_guardMw hm
    refine ⟨namesWaf_iff.mpr ?_, hcorr⟩
    cases hcorr with
    | waf block asks => exact ⟨_, asks⟩
    | stripPrefix asks => cases hwaf
    | cors asks => cases hwaf
    | rateLimit asks => cases hwaf

/-! ## Tables -/

theorem pool_of_hasTarget {config : Config} (h : HasTarget config (.proxy upstream target)) :
    ∃ p, (gatewayOf config).pool (.proxy upstream target) = some p := by
  cases upstream with
  | some name => exact h
  | none =>
    obtain ⟨url, rfl⟩ := h
    exact ⟨_, rfl⟩

theorem caches_iff (hacc : Acceptable ast) (hr : builtRoute (lower env ast).1 rt = some r) :
    (∀ s ∈ rt.steps, ∀ name, Asks s (.cache name) → ∃ layer, r.cache = some layer ∧ Corresponds ast s (.cache layer)) ↔
      ∀ s ∈ rt.steps, ∀ name, Asks s (.cache name) → name ∈ cacheNames ast ∧
        ∀ t ∈ rt.steps, ∀ other, Asks t (.cache other) → other = name := by
  rw [cache_kept_iff hacc.caches hr]
  constructor
  · intro h s hs name hasks
    obtain ⟨hdef, hsame⟩ := h name (mem_cachesOf.mpr ⟨s, hs, hasks⟩)
    exact ⟨hdef, fun t ht other ho => hsame other (mem_cachesOf.mpr ⟨t, ht, ho⟩)⟩
  · intro h name hn
    obtain ⟨s, hs, hasks⟩ := mem_cachesOf.mp hn
    obtain ⟨hdef, hsame⟩ := h s hs name hasks
    refine ⟨hdef, fun other ho => ?_⟩
    obtain ⟨t, ht, ho⟩ := mem_cachesOf.mp ho
    exact hsame t ht other ho

/-- The references of an accepted text resolve exactly if each of them names a definition of the kind its step uses, and
no route names two caches. -/
theorem resolved_iff (env : Str → Option Str) (text : Str) (g : Nat) (ast : Flow.Ast) (compiled : Compiled)
    (hparse : Flow.parse text = .ok ast) (h : compile env text g = .ok compiled) :
    Resolved ast compiled.config ↔ RightKinds ast := by
  obtain ⟨ast', hparse', rfl, hacc⟩ := acceptable_of_compile h
  cases hparse.symm.trans hparse'
  have hbuilt : ∀ rt ∈ siteRoutes ast, ∃ r, builtRoute (lower env ast).1 rt = some r :=
    fun rt hrt => exists_builtRoute _ (hacc.ends rt hrt)
  constructor
  · intro hres
    refine ⟨fun rt hrt => ?_, fun rt hrt => ?_, fun rt hrt => ?_⟩ <;> obtain ⟨r, hr⟩ := hbuilt rt hrt
    · obtain ⟨site, hsite, hmem⟩ := mem_buildRouter.mpr ⟨rt, hrt, hr⟩
      exact (hasTarget_iff (hacc.ends rt hrt) hr).mp (hres.proxies site hsite r hmem)
    · exact (wafs_iff hr).mp (hres.wafs rt hrt r hr)
    · exact (caches_iff hacc hr).mp (hres.caches rt hrt r hr)
  · intro hkinds
    have hproxies : ∀ site ∈ (buildRouter (lower env ast).1).sites, ∀ r ∈ site.routes, HasTarget (lower env ast).1 r.handler := by
      intro site hsite r hmem
      obtain ⟨rt, hrt, hr⟩ := mem_buildRouter.mp ⟨site, hsite, hmem⟩
      exact (hasTarget_iff (hacc.ends rt hrt) hr).mpr (hkinds.proxies rt hrt)
    refine ⟨hproxies, fun rt hrt r hr => (wafs_iff hr).mpr (hkinds.wafs rt hrt),
      fun rt hrt r hr => (caches_iff hacc hr).mpr (hkinds.caches rt hrt), ?_⟩
    intro req r pool hserve upstream target hhandler
    obtain ⟨route, hroute, heq⟩ := Option.map_eq_some_iff.mp hserve
    cases heq
    obtain ⟨site, hsite, hmem⟩ := Routing.Router.mem_of_route hroute
    have htarget := hproxies site hsite r hmem
    rw [hhandler] at htarget ⊢
    exact pool_of_hasTarget htarget

/-- A proxy that refers to a cache. -/
def mixedText : Str := "cache www \x7b\n\x7d\nsite a.test \x7b\n  route /* ~> proxy(@www)\n\x7d\n"

/-- The text is accepted, and a request meets a proxy without a pool. -/
theorem proxy_without_pool : ∃ compiled r upstream target, compile (fun _ => none) mixedText 0 = .ok compiled ∧
    (gatewayOf compiled.config).serve ⟨"a.test", "/", "GET"⟩ = some (r, none) ∧ r.handler = .proxy upstream target := by
  have hcheck : (compile (fun _ => none) mixedText 0).toOption.any (fun compiled =>
      ((gatewayOf compiled.config).serve ⟨"a.test", "/", "GET"⟩).any (fun served =>
        decide (served.2 = none) && decide (served.1.handler = .proxy (some "www") none))) := by decide +kernel
  obtain ⟨compiled, hcompile, hany⟩ := (Option.any_eq_true _ _).mp hcheck
  obtain ⟨⟨r, pool⟩, hserve, hfacts⟩ := (Option.any_eq_true _ _).mp hany
  rw [Bool.and_eq_true, decide_eq_true_eq, decide_eq_true_eq] at hfacts
  obtain ⟨rfl, hhandler⟩ := hfacts
  exact ⟨compiled, r, _, _, toOption_eq_some.mp hcompile, hserve, hhandler⟩

def pooledText : Str := "upstream www \x7b\n\x7d\nsite a.test \x7b\n  route /* ~> proxy(@www)\n\x7d\n"

theorem resolved_iff_pooled : ∃ ast compiled, Flow.parse pooledText = .ok ast ∧
    compile (fun _ => none) pooledText 0 = .ok compiled ∧ Resolved ast compiled.config := by
  have hok : (compile (fun _ => none) pooledText 0).toOption.isSome := by decide +kernel
  have hcheck : (Flow.parse pooledText).toOption.all (fun ast => (siteRoutes ast).all (fun rt => rt.steps.all (fun s =>
      decide (s.name.node = "proxy".toList) && decide (firstRef s.args = some "www".toList)) &&
        decide ("www".toList ∈ upstreamNames ast))) := by decide +kernel
  obtain ⟨compiled, hsome⟩ := Option.isSome_iff_exists.mp hok
  have hcompile := toOption_eq_some.mp hsome
  obtain ⟨ast, hparse, -⟩ := compile_inv hcompile
  refine ⟨ast, compiled, hparse, hcompile, (resolved_iff _ pooledText 0 ast compiled hparse hcompile).mpr ?_⟩
  rw [hparse] at hcheck
  have hsteps : ∀ rt ∈ siteRoutes ast, ∀ s ∈ rt.steps, s.name.node = "proxy".toList ∧ firstRef s.args = some "www".toList ∧
      "www".toList ∈ upstreamNames ast := by
    intro rt hrt s hs
    have hrt := all_eq_true.mp hcheck rt hrt
    rw [Bool.and_eq_true, decide_eq_true_eq] at hrt
    have hs := all_eq_true.mp hrt.1 s hs
    rw [Bool.and_eq_true, decide_eq_true_eq, decide_eq_true_eq] at hs
    exact ⟨hs.1, hs.2, hrt.2⟩
  refine ⟨fun rt hrt s hs _ => ?_, fun rt hrt s hs name hasks => ?_, fun rt hrt s hs name hasks => ?_⟩
  · obtain ⟨-, harg, hdef⟩ := hsteps rt hrt s hs
    exact .inr ⟨_, hdef, harg⟩
  · cases hasks with
    | waf hname harg => exact absurd (hname.symm.trans (hsteps rt hrt s hs).1) (by decide)
  · cases hasks with
    | cache hname harg => exact absurd (hname.symm.trans (hsteps rt hrt s hs).1) (by decide)

end Pulsate.Cli
