import Pulsate.Router.Lemmas.Hosts
import Pulsate.Router.Lemmas.Order

/-!
# Results about the routing table
-/

namespace Pulsate.Routing

open Option
open Pulsate.Flow (MatchKind)
open Lib (best IsBest isBest_of_best)

/-! ## Precedence -/

/-- A request is served by precedence exactly if the chosen site does not leave it to an expression and a route that
catches all: of those two the router picks the wrong one. -/
theorem routesByPrecedence_iff (router : Router) (host path method : Str) (hpath : path.len < 900000) :
    router.RoutesByPrecedence host path method ↔
      ∀ s, router.siteFor host = some s →
        (∃ r ∈ s.routes, r.Matches path method ∧ r.kind = .Regex) →
        (∃ r ∈ s.routes, r.Matches path method ∧ r.IsCatchAll) →
        ∃ r ∈ s.routes, r.Matches path method ∧ r.kind ≠ .Regex ∧ ¬ r.IsCatchAll := by
  constructor
  · rintro h s hs ⟨r₁, hr₁, hm₁, hregex⟩ ⟨r₂, hr₂, hm₂, hall⟩
    cases hroute : router.route host path method with
    | none =>
      rw [Router.route, hs, bind_some] at hroute
      rw [Route.Matches, Lib.best_eq_none.mp hroute r₁ hr₁] at hm₁
      cases hm₁
    | some r =>
      obtain ⟨hr, hm, hle⟩ := h.route s r hs hroute
      refine ⟨r, hr, hm, fun hk => ?_, fun hc => ?_⟩
      · -- what catches all has the greater score
        rw [Router.route, hs, bind_some] at hroute
        obtain ⟨-, sc, hsc, hmax⟩ := isBest_of_best hroute
        obtain ⟨sc₂, hsc₂⟩ := isSome_iff_exists.mp hm₂
        have hge := hmax r₂ hr₂ sc₂ hsc₂
        rw [Route.score_catchAll hpath hall hsc₂, Route.score_regex hpath hk hsc] at hge
        exact absurd hge (by decide)
      · have := hle r₁ hr₁ hm₁
        rw [Route.tier_catchAll hc, Route.tier_regex hregex] at this
        exact absurd this (by decide)
  · intro h
    refine ⟨fun s hs => Router.mostSpecific_of_isBest (isBest_of_best hs), fun s r hs hroute => ?_, Router.route_none⟩
    rw [Router.route, hs, bind_some] at hroute
    obtain ⟨hr, sc, hsc, hmax⟩ := isBest_of_best hroute
    dsimp only at hsc
    refine ⟨hr, by rw [Route.Matches, hsc]; rfl, fun r' hr' hm' => ?_⟩
    obtain ⟨sc', hsc'⟩ := isSome_iff_exists.mp hm'
    refine Route.tier_le_of_score hpath hsc hsc' (hmax r' hr' sc' hsc') (fun hboth => ?_)
    obtain ⟨hall, hregex⟩ := hboth
    obtain ⟨r₃, hr₃, hm₃, hk₃, hc₃⟩ := h s hs ⟨r', hr', hm', hregex⟩ ⟨r, hr, by rw [Route.Matches, hsc]; rfl, hall⟩
    obtain ⟨sc₃, hsc₃⟩ := isSome_iff_exists.mp hm₃
    have hlt := Route.score_specific hpath hk₃ hc₃ hsc₃
    have hle := hmax r₃ hr₃ sc₃ hsc₃
    rw [Route.score_catchAll hpath hall hsc] at hle
    exact absurd hlt (Nat.not_lt.mpr hle)

/-- A route that answers with its own pattern. -/
def echo (kind : MatchKind) (pattern : Str) (method : Option Str) : Route :=
  ⟨kind, pattern, method, [], none, .respond 200 pattern⟩

def shadowRouter : Router := ⟨[⟨["h"], [echo .Regex "/a" none, echo .Prefix "/*" none]⟩]⟩

/-- An expression loses to a route that catches all. -/
theorem expression_shadowed : shadowRouter.route "h" "/a" "GET" = some (echo .Prefix "/*" none) ∧
    (echo .Regex "/a" none).Matches "/a" "GET" ∧ (echo .Prefix "/*" none).tier < (echo .Regex "/a" none).tier := by
  refine ⟨by decide, rfl, ?_⟩
  rw [Route.tier_catchAll ⟨rfl, by decide⟩, Route.tier_regex rfl]
  decide

theorem routesByPrecedence_iff_other : shadowRouter.RoutesByPrecedence "h" "/b" "GET" := by
  refine (routesByPrecedence_iff shadowRouter "h" "/b" "GET" (by decide)).mpr ?_
  rintro s hs ⟨r, hr, hm, hk⟩ -
  have hs' : some s = some ⟨["h"], [echo .Regex "/a" none, echo .Prefix "/*" none]⟩ := hs.symm.trans (by decide)
  cases hs'
  rcases List.mem_pair.mp hr with rfl | rfl
  · exact absurd hm (by decide)
  · cases hk

/-! ## The order of declaration -/

/-- A request is answered alike under every order of declaration exactly if all sites with the best score for the
host have the same best answer. -/
theorem route_reordered_iff (router : Router) (host path method : Str) :
    (∀ router', router.Reordered router' → router'.route host path method = router.route host path method) ↔
      ∀ s t, IsBest (·.hostScore (hostWithoutPort host)) router.sites s →
        IsBest (·.hostScore (hostWithoutPort host)) router.sites t →
        ∀ a b, s.Yields path method a → t.Yields path method b → a = b := by
  constructor
  · intro h s t hs ht a b ha hb
    obtain ⟨ra, hra, rfl⟩ := Router.exists_reordered hs ha
    obtain ⟨rb, hrb, rfl⟩ := Router.exists_reordered ht hb
    exact (h ra hra).trans (h rb hrb).symm
  · intro h router' hre
    exact hre.route_eq h

def tiedRouter : Router := ⟨[⟨["h"], [echo .Prefix "/a" (some "GET"), echo .Prefix "/a" none]⟩]⟩

def tiedRouter' : Router := ⟨[⟨["h"], [echo .Prefix "/a" none, echo .Prefix "/a" (some "GET")]⟩]⟩

/-- Of a route for one method and one for all, the one declared last is picked. -/
theorem order_decides : (tiedRouter.sites.flatMap (·.hosts)).Nodup ∧ (∀ s ∈ tiedRouter.sites, s.claims.Nodup) ∧
    tiedRouter.Reordered tiedRouter' ∧
    tiedRouter.route "h" "/a" "GET" = some (echo .Prefix "/a" none) ∧
    tiedRouter'.route "h" "/a" "GET" = some (echo .Prefix "/a" (some "GET")) := by
  refine ⟨by decide, by decide, ⟨_, List.Perm.refl _, ?_⟩, by decide, by decide⟩
  exact List.Forall₂.cons ⟨rfl, List.Perm.swap _ _ _⟩ List.Forall₂.nil

/-- The router matches hosts label by label, as the Kubernetes translation does, exactly where the host is read as it is
meant. -/
theorem matchesExactly_iff (pat name : Str) (port : Option Str) (hpat : pat ≠ ":default") (hname : IsHostName name) :
    MatchesExactly pat name port ↔ ReadAsMeant pat name := by
  rw [← label_iff port hpat hname]
  constructor
  · exact fun h => h.label
  · intro h
    refine ⟨h, fun hvalid hvalid' => ?_⟩
    rw [h, hostMatches_iff hvalid hvalid']

/-- A wildcard matches a name that merely ends with the same characters. -/
theorem foreign_host_matched : PatternMatches "*.example.com" (hostText "badexample.com" none) ∧
    ¬ LabelExact "*.example.com" "badexample.com" ∧
    K8s.isValidHostname "*.example.com" ∧ K8s.isValidHostname "badexample.com" ∧
    K8s.hostMatches "*.example.com" "badexample.com" = false := by
  have hmatch : K8s.hostMatches "*.example.com" "badexample.com" = false := by decide
  have hvalid : K8s.isValidHostname "*.example.com" := by decide
  have hvalid' : K8s.isValidHostname "badexample.com" := by decide
  refine ⟨by decide, fun h => ?_, hvalid, hvalid', hmatch⟩
  rw [← hostMatches_iff hvalid hvalid', hmatch] at h
  cases h

theorem matchesExactly_iff_label : MatchesExactly "*.example.com" "a.example.com" (some "8443") := by
  refine (matchesExactly_iff "*.example.com" "a.example.com" (some "8443") (by decide) (.inl (by decide))).mpr ?_
  have hstrip : Str.stripPrefix "*.example.com" "*." = some "example.com".toList := by decide
  rw [ReadAsMeant, hstrip]
  dsimp only
  rw [if_neg (by decide)]
  exact ⟨fun _ => ⟨['a'], by decide, by decide⟩, fun _ _ _ => by decide⟩

end Pulsate.Routing
