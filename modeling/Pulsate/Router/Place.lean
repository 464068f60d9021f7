import Pulsate.Router.Lemmas.Best

/-!
# Where a route stands

A routing table hands out its routes by reference. The reference is the number of the site and that of the route in it.
-/

namespace Pulsate.Routing

open List Lib Option

structure Place where
  site : Nat
  index : Nat
  route : Route
  deriving DecidableEq, Repr

namespace Router

/-- The route that serves a request, by reference. -/
def place (router : Router) (host path method : Str) : Option Place :=
  (Lib.best (fun site => site.1.hostScore (hostWithoutPort host)) router.sites.zipIdx).bind (fun site =>
    (Lib.best (fun r => r.1.score path method) site.1.routes.zipIdx).map (fun r => ⟨site.2, r.2, r.1⟩))

theorem route_eq_place (router : Router) (host path method : Str) :
    router.route host path method = (router.place host path method).map (·.route) := by
  have hsite : router.siteFor host =
      (Lib.best (fun site => site.1.hostScore (hostWithoutPort host)) router.sites.zipIdx).map Prod.fst := by
    rw [siteFor_eq, ← zipIdx_map_fst 0 router.sites, best_map, zipIdx_map_fst]
    rfl
  have hroute : ∀ site, routeIn site path method =
      (Lib.best (fun r => r.1.score path method) site.routes.zipIdx).map Prod.fst := by
    intro site
    rw [routeIn_eq, ← zipIdx_map_fst 0 site.routes, best_map, zipIdx_map_fst]
    rfl
  rw [route, hsite, place, Option.map_bind, Option.bind_map]
  refine Option.bind_congr (fun site _ => ?_)
  rw [Function.comp_apply, hroute, Function.comp_apply, Option.map_map]
  rfl

theorem mem_of_place {router : Router} {host path method : Str} {place : Place} (h : router.place host path method = some place) :
    ∃ site ∈ router.sites, place.route ∈ site.routes := by
  obtain ⟨⟨site, i⟩, hsite, h⟩ := bind_eq_some_iff.mp h
  obtain ⟨⟨r, j⟩, hr, rfl⟩ := map_eq_some_iff.mp h
  exact ⟨site, fst_mem_of_mem_zipIdx (isBest_of_best hsite).1, fst_mem_of_mem_zipIdx (isBest_of_best hr).1⟩

end Router

end Pulsate.Routing
