import Pulsate.K8s.Routing.Lemmas.Precedence

/-!
# Serving a plan

A lowered plan passes every check of the compiler, and each of its sites serves the host it was written for.
-/

namespace Pulsate.K8s

open List Lib
open Pulsate.Flow (typeAtom)
open Routing (Route SiteRoutes Router)

variable {ps : List Placement} {config : Conf.Config}

theorem asStr_typeAtom {host s : Str} (h : s ∈ (Conf.asStr (typeAtom host)).toList) : s = host := by
  rw [Option.mem_toList] at h
  cases hv : typeAtom host with
  | str t =>
    rw [hv] at h
    cases h
    exact Flow.eq_of_typeAtom hv
  | _ => rw [hv] at h; cases h

/-- The host patterns of the site written for a host. -/
def readHosts (host : Str) : List Str := (Conf.asStr (typeAtom host)).toList

theorem typeAtom_of_mem_readHosts {host : Str} (h : host ∈ readHosts host) : typeAtom host = .str host := by
  rw [readHosts, Option.mem_toList] at h
  cases hv : typeAtom host with
  | str t =>
    rw [hv] at h
    cases h
    rfl
  | _ => rw [hv] at h; cases h

theorem filterMap_buildRoute {layers : Lib.OrdMap Str Routing.CacheLayer} {rs : List Conf.RouteDef}
    {entries : List Entry} (h : List.Forall₂ Serves rs entries) :
    rs.filterMap (Conf.buildRoute config layers) = entries.map Entry.served := by
  induction h with
  | nil => rfl
  | cons hs _ ih => rw [filterMap_cons_some (buildRoute_serves hs), ih, map_cons]

theorem buildRouter_lowered (h : Lowered (plan ps) config) :
    (Conf.buildRouter config).sites = (plan ps).sites.entries.map (fun e => e.2.served (readHosts e.1)) := by
  rw [Conf.buildRouter]
  have hall := h.sites
  generalize config.sites = sites at hall
  generalize (plan ps).sites.entries = es at hall
  dsimp only
  induction hall with
  | nil => rfl
  | cons hs _ ih =>
    rw [map_cons, map_cons, ih, hs.hosts, filterMap_buildRoute hs.routes]
    rfl

/-! ## Checks -/

theorem readHosts_sublist (es : List (Str × SitePlan)) :
    (es.flatMap (fun e => readHosts e.1)).Sublist (es.map Prod.fst) := by
  induction es with
  | nil => exact List.Sublist.refl _
  | cons e es ih =>
    rw [flatMap_cons, map_cons]
    cases hr : readHosts e.1 with
    | nil => exact ih.cons _
    | cons s rest =>
      have hs : s = e.1 := asStr_typeAtom (show s ∈ readHosts e.1 by rw [hr]; exact mem_cons_self)
      have hrest : rest = [] := by
        rw [readHosts] at hr
        cases ho : Conf.asStr (typeAtom e.1) with
        | none => rw [ho] at hr; cases hr
        | some t => rw [ho] at hr; cases hr; rfl
      rw [hs, hrest]
      exact ih.cons_cons _

theorem serves_of_mem (h : Lowered (plan ps) config) {rd : Conf.RouteDef} (hrd : rd ∈ config.sites.flatMap (·.routes)) :
    ∃ n, Serves rd n ∧ n.upstream ∈ config.upstreams.map (·.name) := by
  obtain ⟨site, hsite, hrd⟩ := mem_flatMap.mp hrd
  obtain ⟨⟨host, s⟩, he, hserves⟩ := exists_right_of_forall₂ h.sites hsite
  obtain ⟨n, hn, hs⟩ := exists_right_of_forall₂ hserves.routes hrd
  obtain ⟨-, rfl⟩ := mem_plan_sites.mp he
  obtain ⟨⟨k, n⟩, hk, rfl⟩ := mem_map.mp hn
  obtain ⟨-, p, hp, -, hnp⟩ := mem_sitePlan_routes hk
  obtain ⟨m, -, rfl⟩ := mem_map.mp hnp
  refine ⟨_, hs, ?_⟩
  rw [h.upstreams]
  exact Lib.OrdMap.mem_keys_insertAll_empty.mpr ⟨_, mem_map.mpr ⟨p, hp, rfl⟩⟩

theorem validate_lowered (h : Lowered (plan ps) config) : Conf.validate config = [] := by
  obtain ⟨hcaches, hwafs, husers⟩ := h.rest
  have hups : Conf.checkDupNames "upstream" [] (config.upstreams.map (fun u => (u.name, u.span))) = [] := by
    refine Conf.checkDupNames_eq_nil.mpr ⟨?_, by simp⟩
    rw [map_map]
    show (config.upstreams.map (·.name)).Nodup
    rw [h.upstreams]
    exact Lib.OrdMap.nodup_keys _
  have hrefs : (config.sites.flatMap (·.routes)).flatMap
      (fun route => route.refs.flatMap (Conf.checkRef config.definedNames)) = [] := by
    rw [flatMap_eq_nil_iff]
    intro rd hrd
    rw [flatMap_eq_nil_iff]
    intro ref href
    obtain ⟨n, hs, hn⟩ := serves_of_mem h hrd
    have hname : ref.name ∈ rd.refs.map (·.name) := mem_map_of_mem href
    rw [hs.refs, mem_singleton] at hname
    have hdef : config.definedNames.contains ref.name := by
      rw [contains_iff_mem, hname, Conf.Config.definedNames]
      simp only [append_assoc]
      exact mem_append_left _ hn
    rw [Conf.checkRef, hdef, if_pos rfl]
  have hcors : (config.sites.flatMap (·.routes)).flatMap
      (fun route => route.mwSpecs.flatMap (Conf.checkCors route)) = [] := by
    rw [flatMap_eq_nil_iff]
    intro rd hrd
    obtain ⟨n, hs, -⟩ := serves_of_mem h hrd
    rw [hs.mwSpecs, flatMap_nil]
  have hhosts : Conf.checkHostCollisions [] (config.sites.flatMap (·.hosts)) = [] := by
    refine Conf.checkHostCollisions_eq_nil.mpr ⟨?_, by simp⟩
    have heq : (config.sites.flatMap (·.hosts)).map (·.pattern) =
        (plan ps).sites.entries.flatMap (fun e => readHosts e.1) := by
      rw [map_flatMap, flatMap_def, flatMap_def]
      exact congrArg List.flatten (map_eq_of_forall₂ h.sites (fun site e hs => hs.hosts))
    rw [heq]
    exact (readHosts_sublist _).nodup (Lib.OrdMap.nodup_keys _)
  rw [Conf.validate, hups, hcaches, hwafs, husers, hrefs, hcors, hhosts]
  rfl

/-! ## Sites -/

theorem hostWithoutPort_of_isValidHostname {host : Str} (h : isValidHostname host) :
    Routing.hostWithoutPort host = host := by
  have hcolon : ':' ∉ host := by
    intro hc
    rcases (isValidHostname_chars h).2 ':' hc with hn | hn
    · cases hn
    · cases hn
  exact Routing.hostWithoutPort_of_not_mem hcolon

theorem siteFor_of_hosts {router : Router} {pre post : List SiteRoutes} {site : SiteRoutes} {host : Str}
    (hsites : router.sites = pre ++ site :: post) (hsite : site.hosts = [host]) (hhost : IsHost host)
    (hother : ∀ t ∈ pre ++ post, ∀ pat ∈ t.hosts, pat ≠ host ∧ (host = ":default" → pat ≠ [])) :
    router.siteFor host = some site := by
  rcases hhost with hdef | hvalid
  · have hport : Routing.hostWithoutPort host = [] := by rw [hdef]; rfl
    refine Router.siteFor_of_max 1 hsites ?_ ?_
    · rw [hport, SiteRoutes.hostScore, hsite, hdef]
      rfl
    · intro t ht sc hsc
      rw [hport] at hsc
      obtain ⟨pat, hpat, hs⟩ := SiteRoutes.hostScore_cases hsc
      obtain ⟨hne, hnil⟩ := hother t ht pat hpat
      exact absurd ((Routing.patternScore_nil hs (hnil hdef)).1.trans hdef.symm) hne
  · have hport := hostWithoutPort_of_isValidHostname hvalid
    refine Router.siteFor_of_max 3 hsites ?_ ?_
    · rw [hport]
      exact SiteRoutes.hostScore_of_mem (by rw [hsite]; exact mem_singleton.mpr rfl)
    · intro t ht sc hsc
      rw [hport] at hsc
      exact SiteRoutes.hostScore_lt hsc (fun hmem => (hother t ht _ hmem).1 rfl)

theorem siteFor_lowered (h : Lowered (plan ps) config) (hhosts : ∀ p ∈ ps, IsHost p.host) {p : Placement}
    (hp : p ∈ ps) (hstr : typeAtom p.host = .str p.host) :
    (Conf.buildRouter config).siteFor p.host = some ((sitePlan ps p.host).served [p.host]) := by
  have hread : readHosts p.host = [p.host] := by rw [readHosts, hstr]; rfl
  have hmem : (p.host, sitePlan ps p.host) ∈ (plan ps).sites.entries := mem_plan_sites.mpr ⟨⟨p, hp, rfl⟩, rfl⟩
  obtain ⟨pre, post, hsplit⟩ := append_of_mem hmem
  have hrouter := buildRouter_lowered h
  rw [hsplit, map_append, map_cons, hread] at hrouter
  refine siteFor_of_hosts hrouter rfl (hhosts p hp) ?_
  -- the other sites list other hosts, none of them empty
  intro t ht pat hpat
  rw [← map_append] at ht
  obtain ⟨⟨h', s'⟩, he, rfl⟩ := mem_map.mp ht
  have hpat : pat = h' := asStr_typeAtom hpat
  have hnd := (plan ps).sites.nodup_keys
  rw [Lib.OrdMap.keys, hsplit, map_append, map_cons, nodup_middle, ← map_append] at hnd
  have hmem' : (h', s') ∈ (plan ps).sites.entries := by
    rw [hsplit]
    rcases mem_append.mp he with he | he
    · exact mem_append_left _ he
    · exact mem_append_right _ (mem_cons_of_mem _ he)
  obtain ⟨⟨q, hq, hqh⟩, -⟩ := mem_plan_sites.mp hmem'
  refine ⟨?_, fun _ => ?_⟩
  · rintro rfl
    exact (nodup_cons.mp hnd).1 (mem_map.mpr ⟨_, he, hpat.symm⟩)
  · rw [hpat, ← hqh]
    exact (hhosts q hq).plain.2

end Pulsate.K8s
