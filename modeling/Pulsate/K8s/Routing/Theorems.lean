import Pulsate.K8s.Routing.Lemmas.Sites
import Pulsate.K8s.Theorems

/-!
# From objects to requests

What the router does with a request when its table was built from the translated text, over any set of
objects: which match serves it, and whether the site of a host is reached at all.
-/

namespace Pulsate.K8s

open List Option
open Pulsate.Flow (typeAtom)
open Conf (compile buildRouter)

variable {classes : List GatewayClass} {gateways : List Gateway} {routes : List HTTPRoute}
  {controllerName : Str}

/-! ## Precedence -/

section Precedence

variable {managed : Lib.OrdMap (Str ×ₗ Str) Gateway}

/-- The path of every match is short and of plain characters. -/
def PlainPaths (routes : List HTTPRoute) : Prop :=
  ∀ r ∈ routes, ∀ rule ∈ r.rules, ∀ m ∈ rule.matches_, ∀ p ∈ m.path,
    (∀ c ∈ p.value, c.isAlphanum ∨ c = '/' ∨ c = '-' ∨ c = '_' ∨ c = '.') ∧ p.value.len < 900000

theorem isLoose_of_plain {c : Char} (h : c.isAlphanum ∨ c = '/' ∨ c = '-' ∨ c = '_' ∨ c = '.') :
    isLoose c = false := by
  rcases h with h | rfl | rfl | rfl | rfl
  · exact Str.forall_ascii (P := fun c => c.isAlphanum → isLoose c = false) (by decide) c
      (ascii_of_isAlphanum h) h
  all_goals rfl

theorem cleanPatterns_of_plainPaths (h : PlainPaths routes) : CleanPatterns managed routes := by
  rw [cleanPatterns_iff]
  intro e he m hm p hp c hc
  obtain ⟨hr, -, -, hi, -⟩ := mem_emitted.mp he
  exact isLoose_of_plain ((h _ hr _ (mem_of_getElem? hi) m hm p hp).1 c hc)

theorem shortValue_of_plainPaths (h : PlainPaths routes) {e : Emitted} (he : e ∈ emitted managed routes) :
    ∀ m ∈ e.rule.effective, ShortValue m := by
  obtain ⟨hr, -, -, hi, -⟩ := mem_emitted.mp he
  intro m hm
  rw [ShortValue, HTTPRouteMatch.value]
  cases hp : m.path with
  | none => decide
  | some p =>
    rw [HTTPRouteRule.effective] at hm
    split at hm
    · rw [mem_singleton.mp hm] at hp
      cases hp
    · exact (h _ hr _ (mem_of_getElem? hi) m hm p hp).2

/-- A request for a host that has a site goes to a match that the Gateway API prefers to all others on the
host, and to none exactly if no match applies. -/
theorem precedence_kept (env : Str → Option Str) (generation : Nat)
    (hlabels : ∀ r ∈ routes, r.metadata.IsLabelled) (hpaths : PlainPaths routes) {host : Str}
    (hsite : ((translate classes gateways routes controllerName).sites.get? host).isSome)
    (hstr : typeAtom host = .str host) :
    ∃ compiled, compile env (toFlow classes gateways routes controllerName) generation = .ok compiled ∧
      ∀ path method,
        match (buildRouter compiled.config).route host path method with
        | none => ∀ p ∈ placements (managedGateways classes gateways controllerName) routes, p.host = host →
            ∀ m ∈ p.toEmitted.rule.effective, ¬ m.Applies path method
        | some r => ∃ p m,
            Wins (placements (managedGateways classes gateways controllerName) routes) host path method p m ∧
              r.handler = .proxy (some p.toEmitted.upName) none := by
  rw [toFlow_eq]
  rw [translate_eq, foldl_place_sites] at hsite
  generalize managedGateways classes gateways controllerName = managed at hsite ⊢
  obtain ⟨ast, hparse, hstmts⟩ := parse_plan hlabels (cleanPatterns_of_plainPaths hpaths)
  obtain ⟨config, hlower, hconfig⟩ := lower_plan env hstmts
  refine ⟨⟨config, generation, []⟩, Conf.compile_eq_ok hparse hlower (validate_lowered hconfig), ?_⟩
  split at hsite
  · rename_i hex
    obtain ⟨p, hp, rfl⟩ := hex
    have hmethods : ∀ p ∈ placements managed routes, ∀ m ∈ p.toEmitted.rule.effective, m.method ≠ some [] :=
      fun p hp m hm => method_ne_nil (matchIsValid_of_emitted (mem_placements.mp hp).1 m hm)
    have hshort : ∀ p ∈ placements managed routes, ∀ m ∈ p.toEmitted.rule.effective, ShortValue m :=
      fun p hp => shortValue_of_plainPaths hpaths (mem_placements.mp hp).1
    have hfor := siteFor_lowered hconfig (fun q hq => placement_host hq) hp hstr
    intro path method
    have hroute : (buildRouter config).route p.host path method =
        Routing.Router.routeIn ((sitePlan (placements managed routes) p.host).served [p.host]) path method := by
      rw [Routing.Router.route, hfor, bind_some]
    rw [hroute]
    split
    · rename_i hnone
      exact routeIn_eq_none hmethods hshort hnone
    · rename_i r hsome
      exact routeIn_eq_some hmethods hshort hsome
  · cases hsite

/-- A route with a rule for a path and all below it, and one for the path alone. -/
def rankedRoute : HTTPRoute :=
  { exampleRoute "team" "web" "shop" ["shop.example"] none with
    rules := [{ exampleRule "shop" with matches_ := [⟨some ⟨"PathPrefix", "/a"⟩, none⟩] },
      { exampleRule "bank" with matches_ := [⟨some ⟨"Exact", "/a"⟩, none⟩] }] }

/-- Both rules match, and the request goes to the second. -/
theorem precedence_kept_exact :
    ∃ compiled, compile (fun _ => none) (exampleFlow [rankedRoute]) 0 = .ok compiled ∧
      ∃ r, (buildRouter compiled.config).route "shop.example" "/a" "GET" = some r ∧
        r.handler = .proxy (some "up_team_web_1") none := by
  have hlabels : ∀ r ∈ [rankedRoute], r.metadata.IsLabelled := forall_mem_singleton.mpr ⟨by decide, by decide⟩
  have hvalue : ∀ rule ∈ rankedRoute.rules, ∀ m ∈ rule.matches_, ∀ p ∈ m.path, p.value = "/a" := by decide
  have hpaths : PlainPaths [rankedRoute] := by
    intro r hr rule hrule m hm p hp
    obtain rfl := mem_singleton.mp hr
    rw [hvalue rule hrule m hm p hp]
    exact ⟨Str.forall_mem_of_all (by decide), by decide⟩
  have hsite : ((exampleAcc [rankedRoute]).sites.get? "shop.example").isSome := by decide
  have hexact : ∃ p ∈ placements exampleManaged [rankedRoute], p.host = "shop.example" ∧
      ∃ m ∈ p.toEmitted.rule.effective, m.Applies "/a" "GET" ∧ m.isExact := by decide
  have hother : ∀ p ∈ placements exampleManaged [rankedRoute], p.toEmitted.upName = "up_team_web_1" ∨
      ∀ m ∈ p.toEmitted.rule.effective, m.isExact = false := by decide
  obtain ⟨q, hq, hhost, m', hm', happlies, hexact⟩ := hexact
  obtain ⟨compiled, hc, hroute⟩ := precedence_kept (fun _ => none) 0 hlabels hpaths hsite rfl
  refine ⟨compiled, hc, ?_⟩
  have h := hroute "/a" "GET"
  split at h
  · exact absurd happlies (h q hq hhost m' hm')
  · rename_i r hr
    obtain ⟨p, m, hw, hhandler⟩ := h
    rcases hother p hw.placed with hname | hprefix
    · exact ⟨r, hr, by rw [hhandler, hname]⟩
    · exact absurd (.inl ⟨hexact, hprefix m hw.mem⟩) (hw.best q hq hhost m' hm' happlies)

end Precedence

/-! ## Hosts -/

section Hosts

variable {env : Str → Option Str} {generation : Nat} {compiled : Conf.Compiled}

theorem keys_translate : (translate classes gateways routes controllerName).sites.keys =
    (plan (placements (managedGateways classes gateways controllerName) routes)).sites.keys := by
  rw [translate_eq, foldl_place_eq]
  exact Lib.OrdMap.keys_mapEntries _ _

/-- When the text compiles, every host of a placement is listed and its own site serves it exactly if each of them
is read as a string and no site lists the empty host beside the default one. -/
theorem sites_reached_iff (h : compile env (toFlow classes gateways routes controllerName) generation = .ok compiled) :
    (∀ p ∈ placements (managedGateways classes gateways controllerName) routes,
      p.host ∈ (compiled.config.sites.flatMap (·.hosts)).map (·.pattern) ∧
      ∃ site, (p.host, site) ∈ writtenSites (translate classes gateways routes controllerName).sites.keys
          (buildRouter compiled.config).sites ∧
        (buildRouter compiled.config).siteFor p.host = some site) ↔
    (∀ p ∈ placements (managedGateways classes gateways controllerName) routes, typeAtom p.host = .str p.host) ∧
      ((∃ p ∈ placements (managedGateways classes gateways controllerName) routes, p.host = ":default") →
        [] ∉ (compiled.config.sites.flatMap (·.hosts)).map (·.pattern)) := by
  have hnd := Conf.nodup_hosts_of_compile h
  obtain ⟨pre, gen, hsites, hgen⟩ := compile_sites h
  rw [keys_translate, patterns_buildRouter]
  rw [patterns_buildRouter] at hnd
  generalize buildRouter compiled.config = router at hsites hnd ⊢
  generalize hps : placements (managedGateways classes gateways controllerName) routes = ps at hgen ⊢
  have hhost : ∀ p ∈ ps, IsHost p.host := by
    rw [← hps]
    exact fun p hp => placement_host hp
  rw [hsites] at hnd ⊢
  constructor
  · intro hreach
    have hown : ∀ p ∈ ps, ∀ site, (p.host, site) ∈ writtenSites (plan ps).sites.keys (pre ++ gen) →
        site.hosts = readHosts p.host := fun p _ site hs => (writtenSites_cases hgen hs).2
    refine ⟨fun p hp => ?_, ?_⟩
    · obtain ⟨hlisted, site, hs, hfor⟩ := hreach p hp
      rcases hhost p hp with hdef | hvalid
      · rw [hdef]
        rfl
      · obtain ⟨t, ht, hmem⟩ := mem_flatMap.mp hlisted
        have hport := hostWithoutPort_of_isValidHostname hvalid
        have hmem' := Routing.Router.mem_hosts_of_siteFor (hsites ▸ ht) (hport.symm ▸ hmem) hfor
        rw [hport, hown p hp site hs] at hmem'
        exact typeAtom_of_mem_readHosts hmem'
    · rintro ⟨p, hp, hdef⟩ hnil
      obtain ⟨-, site, hs, hfor⟩ := hreach p hp
      obtain ⟨t, ht, hmem⟩ := mem_flatMap.mp hnil
      have hport : Routing.hostWithoutPort p.host = [] := by rw [hdef]; rfl
      have hmem' := Routing.Router.mem_hosts_of_siteFor (hsites ▸ ht) (hport.symm ▸ hmem) hfor
      rw [hport, hown p hp site hs] at hmem'
      have := asStr_typeAtom hmem'
      rw [hdef] at this
      cases this
  · rintro ⟨hstr, hdefault⟩ p hp
    have hread : readHosts p.host = [p.host] := by rw [readHosts, hstr p hp]; rfl
    obtain ⟨site, hs⟩ := mem_writtenSites pre hgen (mem_plan_keys hp)
    obtain ⟨hmem, hhosts⟩ := writtenSites_cases hgen hs
    rw [hread] at hhosts
    have hsite := mem_append_right pre hmem
    refine ⟨mem_flatMap.mpr ⟨site, hsite, by rw [hhosts]; exact mem_singleton.mpr rfl⟩, site, hs, ?_⟩
    obtain ⟨l, r, hlr⟩ := append_of_mem hsite
    refine siteFor_of_hosts (hsites.trans hlr) hhosts (hhost p hp) (fun t ht pat hpat => ⟨?_, ?_⟩)
    · rintro rfl
      rw [hlr, flatMap_append, flatMap_cons, hhosts, singleton_append, nodup_middle,
        ← flatMap_append] at hnd
      exact (nodup_cons.mp hnd).1 (mem_flatMap.mpr ⟨t, ht, hpat⟩)
    · rintro hdef rfl
      refine hdefault ⟨p, hp, hdef⟩ (mem_flatMap.mpr ⟨t, ?_, hpat⟩)
      rw [hlr]
      rcases mem_append.mp ht with ht | ht
      · exact mem_append_left _ ht
      · exact mem_append_right _ (mem_cons_of_mem _ ht)

/-- A host named like a switch is valid, and its site loses it. -/
theorem site_lost :
    ∃ compiled, compile (fun _ => none) (exampleFlow [exampleRoute "team" "web" "shop" ["on"] none]) 0 = .ok compiled ∧
      ∃ p ∈ placements exampleManaged [exampleRoute "team" "web" "shop" ["on"] none],
        p.host ∉ (compiled.config.sites.flatMap (·.hosts)).map (·.pattern) ∧
        (buildRouter compiled.config).siteFor p.host = none := by
  have hlost : ∃ c ∈ (compile (fun _ => none) (exampleFlow [exampleRoute "team" "web" "shop" ["on"] none]) 0).toOption,
      (c.config.sites.flatMap (·.hosts)).map (·.pattern) = [] ∧
        ((buildRouter c.config).siteFor "on").isNone := by decide +kernel
  have hplaced : ∃ p ∈ placements exampleManaged [exampleRoute "team" "web" "shop" ["on"] none], p.host = "on" := by decide
  obtain ⟨compiled, hc, hpatterns, hnone⟩ := hlost
  obtain ⟨p, hp, hhost⟩ := hplaced
  refine ⟨compiled, ?_, p, hp, ?_, ?_⟩
  · exact Lib.toOption_eq_some.mp hc
  · rw [hpatterns]
    exact not_mem_nil
  · rw [hhost]
    exact isNone_iff_eq_none.mp hnone

theorem sites_reached_iff_one :
    ∃ compiled, compile (fun _ => none) (exampleFlow [exampleRoute "team" "web" "shop" ["shop.example"] none]) 0 = .ok compiled ∧
      ∀ p ∈ placements exampleManaged [exampleRoute "team" "web" "shop" ["shop.example"] none],
        p.host ∈ (compiled.config.sites.flatMap (·.hosts)).map (·.pattern) ∧
        ∃ site, (p.host, site) ∈ writtenSites (exampleAcc [exampleRoute "team" "web" "shop" ["shop.example"] none]).sites.keys
            (buildRouter compiled.config).sites ∧
          (buildRouter compiled.config).siteFor p.host = some site := by
  have hsome : ∃ c, c ∈ (compile (fun _ => none) (exampleFlow [exampleRoute "team" "web" "shop" ["shop.example"] none]) 0).toOption :=
    isSome_iff_exists.mp (by decide +kernel)
  have hhost : ∀ p ∈ placements exampleManaged [exampleRoute "team" "web" "shop" ["shop.example"] none], p.host = "shop.example" := by decide
  obtain ⟨compiled, hc⟩ := hsome
  have h := Lib.toOption_eq_some.mp hc
  refine ⟨compiled, h, (sites_reached_iff h).mpr ⟨fun p hp => ?_, ?_⟩⟩
  · rw [hhost p hp]
    rfl
  · rintro ⟨p, hp, hd⟩
    rw [hhost p hp] at hd
    exact absurd hd (by decide)

end Hosts

end Pulsate.K8s
