import Pulsate.Router.Lemmas.Sites
import Pulsate.Router.Precedence

/-!
# Scores and precedence

The score of a host pattern ranks it as the documentation does. The score of a route does not: what catches all
scores more than an expression.
-/

namespace Pulsate.Routing

open List Option
open Lib (best IsBest isBest_of_best best_eq_none)

/-! ## Hosts -/

theorem patternScore_cases (pat host : Str) :
    (pat = host ∧ patternScore pat host = some 3) ∨
    (pat ≠ host ∧ pat = ":default" ∧ patternScore pat host = some 1) ∨
    (pat ≠ host ∧ (∃ suffix, pat.stripPrefix "*." = some suffix ∧ suffix.len < host.len ∧ suffix <:+ host) ∧
      patternScore pat host = some 2) ∨
    (pat ≠ host ∧ pat ≠ ":default" ∧
      (∀ suffix, pat.stripPrefix "*." = some suffix → ¬ (suffix.len < host.len ∧ suffix <:+ host)) ∧
      patternScore pat host = none) := by
  unfold patternScore
  by_cases hpat : pat = host
  · exact .inl ⟨hpat, if_pos hpat⟩
  · rw [if_neg hpat]
    by_cases hdefault : pat = ":default"
    · exact .inr (.inl ⟨hpat, hdefault, if_pos hdefault⟩)
    · rw [if_neg hdefault]
      cases hstrip : pat.stripPrefix "*." with
      | none => exact .inr (.inr (.inr ⟨hpat, hdefault, nofun, rfl⟩))
      | some suffix =>
        dsimp only
        by_cases hsuffix : suffix.len < host.len ∧ suffix <:+ host
        · exact .inr (.inr (.inl ⟨hpat, ⟨suffix, rfl, hsuffix⟩, if_pos hsuffix⟩))
        · refine .inr (.inr (.inr ⟨hpat, hdefault, fun s hs => ?_, if_neg hsuffix⟩))
          cases hs
          exact hsuffix

namespace SiteRoutes

variable {s : SiteRoutes} {host : Str}

theorem hostScore_ge {pat : Str} {sc : Nat} (hpat : pat ∈ s.hosts) (h : patternScore pat host = some sc) :
    ∃ sc', s.hostScore host = some sc' ∧ sc ≤ sc' :=
  foldl_max_ge (patternScore · host) s.hosts none (.inr ⟨pat, hpat, h⟩)

/-- A site scores by its most specific pattern for the host. -/
theorem hostScore_spec (s : SiteRoutes) (host : Str) :
    (s.Names host ∧ s.hostScore host = some 3) ∨
    (¬ s.Names host ∧ s.Covers host ∧ s.hostScore host = some 2) ∨
    (¬ s.Names host ∧ ¬ s.Covers host ∧ s.IsDefault ∧ s.hostScore host = some 1) ∨
    (¬ s.Names host ∧ ¬ s.Covers host ∧ ¬ s.IsDefault ∧ s.hostScore host = none) := by
  by_cases hnames : s.Names host
  · exact .inl ⟨hnames, hostScore_of_mem hnames⟩
  · -- no pattern is the host, so a pattern has a score for one of two reasons
    have hreason : ∀ pat ∈ s.hosts, ∀ sc, patternScore pat host = some sc →
        (sc = 2 ∧ s.Covers host) ∨ (sc = 1 ∧ s.IsDefault) := by
      intro pat hpat sc hsc
      rcases patternScore_cases pat host with ⟨rfl, -⟩ | ⟨-, hd, he⟩ | ⟨-, ⟨suffix, hs⟩, he⟩ | ⟨-, -, -, he⟩
      · exact absurd hpat hnames
      · rw [hsc] at he
        refine .inr ⟨Option.some.inj he, ?_⟩
        rw [SiteRoutes.IsDefault, ← hd]
        exact hpat
      · rw [hsc] at he
        exact .inl ⟨Option.some.inj he, pat, hpat, suffix, hs⟩
      · rw [hsc] at he
        cases he
    by_cases hcovers : s.Covers host
    · obtain ⟨pat, hpat, suffix, hs⟩ := hcovers
      have hscore : patternScore pat host = some 2 := by
        rcases patternScore_cases pat host with ⟨rfl, -⟩ | ⟨-, rfl, -⟩ | ⟨-, -, he⟩ | ⟨-, -, hno, -⟩
        · exact absurd hpat hnames
        · have hstrip : Str.stripPrefix ":default" "*." = none := by decide
          rw [hstrip] at hs
          cases hs.1
        · exact he
        · exact absurd hs.2 (hno suffix hs.1)
      obtain ⟨sc, hsc, hle⟩ := hostScore_ge hpat hscore
      obtain ⟨pat', hpat', hsc'⟩ := hostScore_cases hsc
      refine .inr (.inl ⟨hnames, ⟨pat, hpat, suffix, hs⟩, ?_⟩)
      rcases hreason pat' hpat' sc hsc' with ⟨rfl, -⟩ | ⟨rfl, -⟩
      · exact hsc
      · exact absurd hle (by decide)
    · by_cases hdefault : s.IsDefault
      · have hne : ":default" ≠ host := fun h => hnames (h ▸ hdefault)
        have hscore : patternScore ":default" host = some 1 := by
          unfold patternScore
          rw [if_neg hne, if_pos rfl]
        obtain ⟨sc, hsc, -⟩ := hostScore_ge hdefault hscore
        obtain ⟨pat', hpat', hsc'⟩ := hostScore_cases hsc
        refine .inr (.inr (.inl ⟨hnames, hcovers, hdefault, ?_⟩))
        rcases hreason pat' hpat' sc hsc' with ⟨-, hc⟩ | ⟨rfl, -⟩
        · exact absurd hc hcovers
        · exact hsc
      · refine .inr (.inr (.inr ⟨hnames, hcovers, hdefault, ?_⟩))
        cases hsc : s.hostScore host with
        | none => rfl
        | some sc =>
          obtain ⟨pat', hpat', hsc'⟩ := hostScore_cases hsc
          rcases hreason pat' hpat' sc hsc' with ⟨-, hc⟩ | ⟨-, hd⟩
          · exact absurd hc hcovers
          · exact absurd hd hdefault

end SiteRoutes

/-! ## Sites -/

namespace Router

variable {router : Router} {host path method : Str} {s : SiteRoutes}

theorem routeIn_eq (s : SiteRoutes) (path method : Str) : routeIn s path method = best (·.score path method) s.routes := rfl

theorem mostSpecific_of_isBest (h : IsBest (·.hostScore host) router.sites s) : router.MostSpecific host s := by
  obtain ⟨hmem, sc, hsc, hmax⟩ := h
  dsimp only at hsc
  refine ⟨hmem, ?_⟩
  have hnames : sc < 3 → ∀ t ∈ router.sites, ¬ t.Names host := by
    intro hlt t ht hn
    exact absurd (hmax t ht 3 (SiteRoutes.hostScore_of_mem hn)) (Nat.not_le.mpr hlt)
  have hcovers : sc < 2 → ∀ t ∈ router.sites, ¬ t.Covers host := by
    intro hlt t ht hc
    rcases SiteRoutes.hostScore_spec t host with ⟨hn, -⟩ | ⟨-, -, h2⟩ | ⟨-, hno, -⟩ | ⟨-, hno, -⟩
    · exact hnames (hlt.trans (by decide)) t ht hn
    · exact absurd (hmax t ht 2 h2) (Nat.not_le.mpr hlt)
    · exact hno hc
    · exact hno hc
  rcases SiteRoutes.hostScore_spec s host with ⟨hn, -⟩ | ⟨-, hc, he⟩ | ⟨-, -, hd, he⟩ | ⟨-, -, -, he⟩
  · exact .inl hn
  · rw [hsc] at he
    cases he
    exact .inr ⟨hnames (by decide), .inl hc⟩
  · rw [hsc] at he
    cases he
    exact .inr ⟨hnames (by decide), .inr ⟨hcovers (by decide), hd⟩⟩
  · rw [hsc] at he
    cases he

theorem route_none (h : router.route host path method = none) :
    (∀ t ∈ router.sites, ¬ t.Names (hostWithoutPort host) ∧ ¬ t.Covers (hostWithoutPort host) ∧ ¬ t.IsDefault) ∨
    ∃ s, router.siteFor host = some s ∧ ∀ r ∈ s.routes, ¬ r.Matches path method := by
  rw [route] at h
  cases hsite : router.siteFor host with
  | none =>
    refine .inl (fun t ht => ?_)
    have hnone := best_eq_none.mp hsite t ht
    rcases SiteRoutes.hostScore_spec t (hostWithoutPort host) with ⟨-, he⟩ | ⟨-, -, he⟩ | ⟨-, -, -, he⟩ | ⟨hn, hc, hd, -⟩
    · rw [hnone] at he
      cases he
    · rw [hnone] at he
      cases he
    · rw [hnone] at he
      cases he
    · exact ⟨hn, hc, hd⟩
  | some s =>
    rw [hsite, bind_some] at h
    refine .inr ⟨s, rfl, fun r hr hm => ?_⟩
    rw [Route.Matches, best_eq_none.mp h r hr] at hm
    cases hm

theorem mem_of_route {r : Route} (h : router.route host path method = some r) : ∃ s ∈ router.sites, r ∈ s.routes := by
  obtain ⟨s, hs, hr⟩ := bind_eq_some_iff.mp h
  exact ⟨s, (isBest_of_best hs).1, (isBest_of_best hr).1⟩

theorem matches_of_route {r : Route} (h : router.route host path method = some r) : r.Matches path method := by
  obtain ⟨s, -, hs⟩ := bind_eq_some_iff.mp h
  obtain ⟨-, sc, hsc, -⟩ := isBest_of_best hs
  dsimp only at hsc
  rw [Route.Matches, hsc]
  rfl

end Router

/-! ## Routes -/

namespace Route

variable {r r' : Route} {path method : Str} {sc sc' : Nat}

theorem eqIgnoreAsciiCase_of_matches {m : Str} (h : r.Matches path method) (hm : r.method = some m) :
    m.eqIgnoreAsciiCase method := by
  by_contra hne
  rw [Matches, score, hm] at h
  simp [hne] at h

theorem exists_matches (r : Route) (h : ∀ m ∈ r.method, m.eqIgnoreAsciiCase method) :
    ∃ path, r.Matches path method := by
  have hmethod : ¬ r.method.any (fun m => !m.eqIgnoreAsciiCase method) := by
    cases hm : r.method with
    | none => simp
    | some m => simp [h m hm]
  cases hk : r.kind with
  | Exact => exact ⟨r.pattern, by rw [Matches, score, if_neg hmethod, hk]; simp⟩
  | Prefix => exact ⟨prefixOf r.pattern, by rw [Matches, score, if_neg hmethod, hk]; simp⟩
  | Regex => exact ⟨r.pattern, by rw [Matches, score, if_neg hmethod, hk]; simp⟩

theorem isPrefix_withSlash (p : Str) : p <+: withSlash p := by
  rw [withSlash]
  split
  · exact prefix_rfl
  · exact prefix_append _ _

theorem len_prefixOf_le {p : Str} (h : path = p ∨ withSlash p <+: path) : p.len ≤ path.len := by
  have hprefix : p <+: path := by
    rcases h with rfl | h
    · exact prefix_rfl
    · exact (isPrefix_withSlash p).trans h
  obtain ⟨t, rfl⟩ := hprefix
  rw [Str.len, Str.len, map_append, sum_append]
  exact Nat.le_add_right _ _

theorem score_cases (hpath : path.len < 900000) (h : r.score path method = some sc) :
    (r.kind = .Exact ∧ sc = 1000000) ∨
    (r.kind = .Prefix ∧ prefixOf r.pattern ≠ [] ∧ sc = 1000 + (prefixOf r.pattern).len ∧
      (prefixOf r.pattern).len < 900000) ∨
    (r.IsCatchAll ∧ sc = 1000) ∨ (r.kind = .Regex ∧ sc = 10) := by
  unfold score at h
  split at h
  · cases h
  · split at h
    · rename_i hkind
      split at h
      · exact .inl ⟨hkind, (Option.some.inj h).symm⟩
      · cases h
    · rename_i hkind
      dsimp only at h
      split at h
      · rename_i hmatch
        by_cases hempty : prefixOf r.pattern = []
        · rw [hempty] at h
          exact .inr (.inr (.inl ⟨⟨hkind, hempty⟩, (Option.some.inj h).symm⟩))
        · have hlen := lt_of_le_of_lt (len_prefixOf_le (hmatch.resolve_left hempty)) hpath
          refine .inr (.inl ⟨hkind, hempty, ?_, hlen⟩)
          rw [if_pos (by omega), Nat.mod_eq_of_lt (by omega)] at h
          exact (Option.some.inj h).symm
      · cases h
    · rename_i hkind
      split at h
      · exact .inr (.inr (.inr ⟨hkind, (Option.some.inj h).symm⟩))
      · cases h

theorem score_regex (hpath : path.len < 900000) (hk : r.kind = .Regex) (h : r.score path method = some sc) : sc = 10 := by
  rcases score_cases hpath h with ⟨hk', -⟩ | ⟨hk', -⟩ | ⟨hc, -⟩ | ⟨-, hs⟩
  · rw [hk] at hk'
    cases hk'
  · rw [hk] at hk'
    cases hk'
  · rw [hc.1] at hk
    cases hk
  · exact hs

theorem score_catchAll (hpath : path.len < 900000) (hc : r.IsCatchAll) (h : r.score path method = some sc) :
    sc = 1000 := by
  rcases score_cases hpath h with ⟨hk, -⟩ | ⟨-, hp, -⟩ | ⟨-, hs⟩ | ⟨hk, -⟩
  · rw [hc.1] at hk
    cases hk
  · exact absurd hc.2 hp
  · exact hs
  · rw [hc.1] at hk
    cases hk

theorem len_pos {p : Str} (h : p ≠ []) : 0 < p.len := by
  obtain ⟨c, t, rfl⟩ := exists_cons_of_ne_nil h
  rw [Str.len, map_cons, sum_cons]
  exact Nat.add_pos_left c.utf8Size_pos _

theorem score_specific (hpath : path.len < 900000) (hk : r.kind ≠ .Regex) (hc : ¬ r.IsCatchAll)
    (h : r.score path method = some sc) : 1000 < sc := by
  rcases score_cases hpath h with ⟨-, hs⟩ | ⟨-, hp, hs, -⟩ | ⟨hc', -⟩ | ⟨hk', -⟩
  · rw [hs]
    decide
  · have := len_pos hp
    omega
  · exact absurd hc' hc
  · exact absurd hk' hk

theorem tier_exact (h : r.kind = .Exact) : r.tier = toLex (3, 0) := by
  rw [tier, h]

theorem tier_nonempty (hk : r.kind = .Prefix) (hp : prefixOf r.pattern ≠ []) :
    r.tier = toLex (2, (prefixOf r.pattern).len) := by
  rw [tier, hk]
  exact if_neg hp

theorem tier_catchAll (h : r.IsCatchAll) : r.tier = toLex (0, 0) := by
  rw [tier, h.1]
  exact if_pos h.2

theorem tier_regex (h : r.kind = .Regex) : r.tier = toLex (1, 0) := by
  rw [tier, h]

theorem tier_le_of_score (hpath : path.len < 900000) (h : r.score path method = some sc)
    (h' : r'.score path method = some sc') (hle : sc' ≤ sc) (hno : ¬ (r.IsCatchAll ∧ r'.kind = .Regex)) :
    r'.tier ≤ r.tier := by
  rcases score_cases hpath h with ⟨hk, hs⟩ | ⟨hk, hp, hs, hlt⟩ | ⟨hc, hs⟩ | ⟨hk, hs⟩ <;>
    rcases score_cases hpath h' with ⟨hk', hs'⟩ | ⟨hk', hp', hs', hlt'⟩ | ⟨hc', hs'⟩ | ⟨hk', hs'⟩
  · rw [tier_exact hk, tier_exact hk']
  · rw [tier_exact hk, tier_nonempty hk' hp', Prod.Lex.toLex_le_toLex]
    exact .inl (show 2 < 3 by decide)
  · rw [tier_exact hk, tier_catchAll hc']
    decide
  · rw [tier_exact hk, tier_regex hk']
    decide
  · omega
  · rw [tier_nonempty hk hp, tier_nonempty hk' hp', Prod.Lex.toLex_le_toLex]
    exact .inr ⟨rfl, by dsimp only; omega⟩
  · rw [tier_nonempty hk hp, tier_catchAll hc', Prod.Lex.toLex_le_toLex]
    exact .inl (show 0 < 2 by decide)
  · rw [tier_nonempty hk hp, tier_regex hk', Prod.Lex.toLex_le_toLex]
    exact .inl (show 1 < 2 by decide)
  · omega
  · have := len_pos hp'
    omega
  · rw [tier_catchAll hc, tier_catchAll hc']
  · exact absurd ⟨hc, hk'⟩ hno
  · omega
  · omega
  · omega
  · rw [tier_regex hk, tier_regex hk']

end Route

end Pulsate.Routing
