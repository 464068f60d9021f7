import Mathlib.Data.Prod.Lex
import Pulsate.Lib.Lists
import Pulsate.Router.Router

/-!
# The precedence of sites and routes

What the documentation says about which site and which route serves a request, apart from the scores that
implement it.
-/

namespace Pulsate.Routing

open Pulsate.Flow (MatchKind)

/-! ## Routes -/

def Route.Matches (r : Route) (path method : Str) : Prop := (r.score path method).isSome

instance (r : Route) (path method : Str) : Decidable (r.Matches path method) := inferInstanceAs (Decidable (_ = true))

/-- A prefix route whose prefix is empty, such as `/` or `/*`. -/
def Route.IsCatchAll (r : Route) : Prop := r.kind = .Prefix ∧ prefixOf r.pattern = []

instance (r : Route) : Decidable r.IsCatchAll := inferInstanceAs (Decidable (_ ∧ _))

/-- Exact paths first, then prefixes, the longer before the shorter, then expressions, then what catches all. -/
def Route.tier (r : Route) : ℕ ×ₗ ℕ :=
  match r.kind with
  | .Exact => toLex (3, 0)
  | .Prefix => if prefixOf r.pattern = [] then toLex (0, 0) else toLex (2, (prefixOf r.pattern).len)
  | .Regex => toLex (1, 0)

/-! ## Sites -/

namespace SiteRoutes

/-- The site lists the host. -/
def Names (s : SiteRoutes) (host : Str) : Prop := host ∈ s.hosts

/-- The site has a wildcard for the host. -/
def Covers (s : SiteRoutes) (host : Str) : Prop :=
  ∃ pat ∈ s.hosts, ∃ suffix, pat.stripPrefix "*." = some suffix ∧ suffix.len < host.len ∧ suffix <:+ host

def IsDefault (s : SiteRoutes) : Prop := ":default".toList ∈ s.hosts

/-- What the routes of the site claim: a path, in some way and for some method. -/
def claims (s : SiteRoutes) : List (MatchKind × Str × Option Str) :=
  s.routes.map (fun r => (r.kind, prefixOf r.pattern, r.method))

/-- What the site may answer a request with: one of its best routes, or nothing if none matches. -/
def Yields (s : SiteRoutes) (path method : Str) : Option Route → Prop
  | some r => Lib.IsBest (·.score path method) s.routes r
  | none => ∀ r ∈ s.routes, r.score path method = none

end SiteRoutes

namespace Router

/-- The site lists the host; or no site does and it has a wildcard for it; or no site has and it is the default. -/
def MostSpecific (router : Router) (host : Str) (s : SiteRoutes) : Prop :=
  s ∈ router.sites ∧
    (s.Names host ∨ ((∀ t ∈ router.sites, ¬ t.Names host) ∧
      (s.Covers host ∨ ((∀ t ∈ router.sites, ¬ t.Covers host) ∧ s.IsDefault))))

/-- The request is served by precedence: the most specific site, in it a matching route that no other matching one
takes precedence over, and nothing only if nothing matches. -/
structure RoutesByPrecedence (router : Router) (host path method : Str) : Prop where
  site : ∀ s, router.siteFor host = some s → router.MostSpecific (hostWithoutPort host) s
  route : ∀ s r, router.siteFor host = some s → router.route host path method = some r →
    r ∈ s.routes ∧ r.Matches path method ∧ ∀ r' ∈ s.routes, r'.Matches path method → r'.tier ≤ r.tier
  none : router.route host path method = none →
    (∀ t ∈ router.sites, ¬ t.Names (hostWithoutPort host) ∧ ¬ t.Covers (hostWithoutPort host) ∧ ¬ t.IsDefault) ∨
    ∃ s, router.siteFor host = some s ∧ ∀ r ∈ s.routes, ¬ r.Matches path method

/-! ## Orders of declaration -/

/-- The same site with its routes in some other order. -/
def SameSite (s t : SiteRoutes) : Prop := s.hosts = t.hosts ∧ s.routes.Perm t.routes

/-- The same sites in some other order, and the routes of each in some other order. -/
def Reordered (router router' : Router) : Prop := Lib.Reordered SameSite router.sites router'.sites

end Router

end Pulsate.Routing
