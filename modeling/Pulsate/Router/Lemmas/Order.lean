import Mathlib.Data.List.Nodup
import Mathlib.Data.List.Pairwise
import Pulsate.Router.Lemmas.Best

/-!
# Routing under another order of declaration

A best site and a best route of it are what a router picks from under every order, and each of them is picked under
some order.
-/

namespace Pulsate.Routing

open List
open Lib (best IsBest isBest_of_best best_eq_none best_concat)

namespace SiteRoutes

variable {s s' : SiteRoutes} {host path method : Str} {a : Option Route}

theorem hostScore_congr (h : s.hosts = s'.hosts) : s.hostScore host = s'.hostScore host := by
  rw [hostScore, hostScore, h]

theorem yields_routeIn (s : SiteRoutes) (path method : Str) : s.Yields path method (Router.routeIn s path method) := by
  cases h : Router.routeIn s path method with
  | none => exact best_eq_none.mp h
  | some r => exact isBest_of_best h

theorem Yields.perm (h : s.Yields path method a) (hp : s.routes.Perm s'.routes) : s'.Yields path method a := by
  cases a with
  | none => exact fun r hr => h r (hp.mem_iff.mpr hr)
  | some r =>
    have hbest : IsBest (·.score path method) s.routes r := h
    exact hbest.perm hp

theorem Yields.exists_perm (h : s.Yields path method a) :
    ∃ routes, s.routes.Perm routes ∧ Router.routeIn ⟨s.hosts, routes⟩ path method = a := by
  cases a with
  | none => exact ⟨s.routes, List.Perm.refl _, best_eq_none.mpr h⟩
  | some r =>
    have hbest : IsBest (·.score path method) s.routes r := h
    obtain ⟨routes, hp, hr⟩ := hbest.exists_perm
    exact ⟨routes, hp.symm, hr⟩

end SiteRoutes

namespace Router

variable {router router' : Router} {host path method : Str} {s s' : SiteRoutes} {a : Option Route}

theorem route_yields (router : Router) (host path method : Str) :
    ((∀ s ∈ router.sites, s.hostScore (hostWithoutPort host) = none) ∧ router.route host path method = none) ∨
    ∃ s, IsBest (·.hostScore (hostWithoutPort host)) router.sites s ∧
      s.Yields path method (router.route host path method) := by
  cases h : router.siteFor host with
  | none => exact .inl ⟨best_eq_none.mp h, by rw [route, h]; rfl⟩
  | some s =>
    refine .inr ⟨s, isBest_of_best h, ?_⟩
    rw [route, h, Option.bind_some]
    exact s.yields_routeIn path method

theorem SameSite.refl (s : SiteRoutes) : SameSite s s := ⟨rfl, List.Perm.refl _⟩

theorem Reordered.isBest (h : router.Reordered router') (hs : IsBest (·.hostScore host) router'.sites s') :
    ∃ s, IsBest (·.hostScore host) router.sites s ∧ SameSite s s' := by
  obtain ⟨hmem, sc, hsc, hmax⟩ := hs
  obtain ⟨s, hs, hsame⟩ := h.exists_left hmem
  refine ⟨s, ⟨hs, sc, (SiteRoutes.hostScore_congr hsame.1).trans hsc, fun t ht sc' hsc' => ?_⟩, hsame⟩
  obtain ⟨t', ht', hsame'⟩ := h.exists_right ht
  exact hmax t' ht' sc' ((SiteRoutes.hostScore_congr hsame'.1).symm.trans hsc')

theorem exists_reordered (hs : IsBest (·.hostScore (hostWithoutPort host)) router.sites s)
    (ha : s.Yields path method a) : ∃ router', router.Reordered router' ∧ router'.route host path method = a := by
  obtain ⟨hmem, sc, hsc, hmax⟩ := hs
  obtain ⟨routes, hp, hroute⟩ := ha.exists_perm
  obtain ⟨pre, post, hsites⟩ := append_of_mem hmem
  have hperm : router.sites.Perm ((pre ++ post) ++ [s]) := by
    rw [hsites]
    exact perm_middle.trans (perm_append_singleton s (pre ++ post)).symm
  refine ⟨⟨(pre ++ post) ++ [⟨s.hosts, routes⟩]⟩, ⟨_, hperm, ?_⟩, ?_⟩
  · refine rel_append (forall₂_same.mpr (fun t _ => SameSite.refl t)) ?_
    exact List.Forall₂.cons ⟨rfl, hp⟩ List.Forall₂.nil
  · have hbest : siteFor ⟨(pre ++ post) ++ [⟨s.hosts, routes⟩]⟩ host = some ⟨s.hosts, routes⟩ := by
      refine best_concat ⟨mem_append_right _ mem_cons_self, sc, hsc, fun t ht sc' hsc' => ?_⟩
      rcases mem_append.mp ht with ht | ht
      · exact hmax t (hperm.mem_iff.mpr (mem_append_left _ ht)) sc' hsc'
      · rw [mem_singleton.mp ht] at hsc'
        exact (Option.some.inj (hsc'.symm.trans hsc)).le
    rw [route, hbest, Option.bind_some]
    exact hroute

theorem Reordered.route_eq (h : router.Reordered router')
    (hone : ∀ s t, IsBest (·.hostScore (hostWithoutPort host)) router.sites s →
      IsBest (·.hostScore (hostWithoutPort host)) router.sites t →
      ∀ a b, s.Yields path method a → t.Yields path method b → a = b) :
    router'.route host path method = router.route host path method := by
  rcases route_yields router' host path method with ⟨hno', hnone'⟩ | ⟨s', hs', ha'⟩
  · rcases route_yields router host path method with ⟨-, hnone⟩ | ⟨t, ⟨ht, sc, hsc, -⟩, -⟩
    · exact hnone'.trans hnone.symm
    · obtain ⟨t', ht', hsame⟩ := h.exists_right ht
      have hnone := (SiteRoutes.hostScore_congr hsame.1).trans (hno' t' ht')
      cases hsc.symm.trans hnone
  · obtain ⟨s, hs, hsame⟩ := h.isBest hs'
    have ha := ha'.perm hsame.2.symm
    rcases route_yields router host path method with ⟨hno, -⟩ | ⟨t, ht, hb⟩
    · obtain ⟨sc, hsc, -⟩ := hs.2
      cases hsc.symm.trans (hno s hs.1)
    · exact hone s t hs ht _ _ ha hb

/-! ## Distinct claims -/

theorem eq_of_mem_hosts (hhosts : (router.sites.flatMap (·.hosts)).Nodup) {t : SiteRoutes} (hs : s ∈ router.sites)
    (ht : t ∈ router.sites) {pat : Str} (hps : pat ∈ s.hosts) (hpt : pat ∈ t.hosts) : s = t := by
  by_contra hne
  have hsymm : Std.Symm (Function.onFun List.Disjoint SiteRoutes.hosts) := ⟨fun _ _ h _ hb ha => h ha hb⟩
  exact (nodup_flatMap.mp hhosts).2.forall hs ht hne hps hpt

/-- Two best sites are one, if they list different patterns and only one of them has a wildcard for the host. -/
theorem eq_of_isBest (hhosts : (router.sites.flatMap (·.hosts)).Nodup)
    (hwild : ∀ s ∈ router.sites, ∀ t ∈ router.sites, s.Covers host → t.Covers host → s = t) {t : SiteRoutes}
    (hs : IsBest (·.hostScore host) router.sites s) (ht : IsBest (·.hostScore host) router.sites t) : s = t := by
  obtain ⟨hsm, hs'⟩ := mostSpecific_of_isBest hs
  obtain ⟨htm, ht'⟩ := mostSpecific_of_isBest ht
  rcases hs' with hsn | ⟨hno, hs'⟩
  · rcases ht' with htn | ⟨hno, -⟩
    · exact eq_of_mem_hosts hhosts hsm htm hsn htn
    · exact absurd hsn (hno s hsm)
  · rcases ht' with htn | ⟨-, ht'⟩
    · exact absurd htn (hno t htm)
    · rcases hs' with hsc | ⟨hnoc, hsd⟩
      · rcases ht' with htc | ⟨hnoc, -⟩
        · exact hwild s hsm t htm hsc htc
        · exact absurd hsc (hnoc s hsm)
      · rcases ht' with htc | ⟨-, htd⟩
        · exact absurd htc (hnoc t htm)
        · exact eq_of_mem_hosts hhosts hsm htm hsd htd

end Router

namespace Route

variable {r r' : Route} {path method : Str} {sc : Nat}

theorem pattern_of_score (hk : r.kind ≠ .Prefix) (h : r.score path method = some sc) : r.pattern = path := by
  unfold score at h
  split at h
  · cases h
  · split at h
    · split at h
      · assumption
      · cases h
    · rename_i hkind
      exact absurd hkind hk
    · split at h
      · assumption
      · cases h

theorem prefixOf_isPrefix (hk : r.kind = .Prefix) (h : r.score path method = some sc) : prefixOf r.pattern <+: path := by
  unfold score at h
  split at h
  · cases h
  · rw [hk] at h
    dsimp only at h
    split at h
    · rename_i hmatch
      rcases hmatch with hempty | hpath | hslash
      · simp only [hempty, nil_prefix]
      · exact hpath ▸ prefix_rfl
      · exact (isPrefix_withSlash _).trans hslash
    · cases h

theorem eq_of_isPrefix {p q : Str} (hp : p <+: path) (hq : q <+: path) (hlen : p.len = q.len) : p = q := by
  have heq : ∀ {p q : Str}, p <+: q → p.len = q.len → p = q := by
    rintro p _ ⟨t, rfl⟩ hlen
    rw [Str.len, Str.len, map_append, sum_append] at hlen
    by_cases ht : t = []
    · rw [ht, append_nil]
    · have hpos := len_pos ht
      rw [Str.len] at hpos
      omega
  rcases prefix_or_prefix_of_prefix hp hq with h | h
  · exact heq h hlen
  · exact (heq h hlen.symm).symm

theorem eq_of_score (hpath : path.len < 900000) (h : r.score path method = some sc) (h' : r'.score path method = some sc) :
    r.kind = r'.kind ∧ prefixOf r.pattern = prefixOf r'.pattern := by
  have hpat : r.kind ≠ .Prefix → r'.kind ≠ .Prefix → prefixOf r.pattern = prefixOf r'.pattern := by
    intro hk hk'
    rw [pattern_of_score hk h, pattern_of_score hk' h']
  rcases score_cases hpath h with ⟨hk, hs⟩ | ⟨hk, hp, hs, hlt⟩ | ⟨hc, hs⟩ | ⟨hk, hs⟩ <;>
    rcases score_cases hpath h' with ⟨hk', hs'⟩ | ⟨hk', hp', hs', hlt'⟩ | ⟨hc', hs'⟩ | ⟨hk', hs'⟩
  · exact ⟨hk.trans hk'.symm, hpat (by rw [hk]; nofun) (by rw [hk']; nofun)⟩
  · omega
  · omega
  · omega
  · omega
  · refine ⟨hk.trans hk'.symm, eq_of_isPrefix (prefixOf_isPrefix hk h) (prefixOf_isPrefix hk' h') ?_⟩
    omega
  · have := len_pos hp
    omega
  · omega
  · omega
  · have := len_pos hp'
    omega
  · exact ⟨hc.1.trans hc'.1.symm, hc.2.trans hc'.2.symm⟩
  · omega
  · omega
  · omega
  · omega
  · exact ⟨hk.trans hk'.symm, hpat (by rw [hk]; nofun) (by rw [hk']; nofun)⟩

end Route

theorem SiteRoutes.Yields.unique {s : SiteRoutes} {path method : Str} {a b : Option Route} (hpath : path.len < 900000)
    (hclaims : s.claims.Nodup)
    (hmethods : ∀ r ∈ s.routes, ∀ r' ∈ s.routes, r.Matches path method → r'.Matches path method → r.kind = r'.kind →
      prefixOf r.pattern = prefixOf r'.pattern → r.method = r'.method)
    (ha : s.Yields path method a) (hb : s.Yields path method b) : a = b := by
  have hnone : ∀ {r}, s.Yields path method none → ¬ s.Yields path method (some r) := by
    rintro r hn ⟨hr, sc, hsc, -⟩
    cases hsc.symm.trans (hn r hr)
  cases a with
  | none =>
    cases b with
    | none => rfl
    | some r => exact absurd hb (hnone ha)
  | some r =>
    cases b with
    | none => exact absurd ha (hnone hb)
    | some r' =>
      obtain ⟨hr, sc, hsc, hmax⟩ := ha
      obtain ⟨hr', sc', hsc', hmax'⟩ := hb
      obtain rfl : sc = sc' := le_antisymm (hmax' r hr sc hsc) (hmax r' hr' sc' hsc')
      dsimp only at hsc hsc'
      obtain ⟨hkind, hpre⟩ := Route.eq_of_score hpath hsc hsc'
      have hmethod := hmethods r hr r' hr' (by rw [Route.Matches, hsc]; rfl) (by rw [Route.Matches, hsc']; rfl)
        hkind hpre
      congr 1
      exact inj_on_of_nodup_map hclaims hr hr' (by rw [hkind, hpre, hmethod])

end Pulsate.Routing
