import Pulsate.K8s.Routing.Lemmas.Lower
import Pulsate.K8s.Lemmas.Tree
import Pulsate.K8s.Routing.Precedence
import Pulsate.Router.Lemmas.Sites

/-!
# The router keeps the precedence of matches
-/

namespace Pulsate.K8s

open List Lib Option HTTPRouteMatch
open Pulsate.Flow (typeAtom)
open Routing (Route SiteRoutes Router prefixOf withSlash)

variable {m : HTTPRouteMatch}

/-! ## Routes of entries -/

/-- The route an entry is served by. -/
def Entry.served (n : Entry) : Route where
  kind := n.kind.toFlow
  pattern := n.pattern
  method := n.method.map Str.toAsciiUppercase
  middleware := []
  cache := none
  handler := .proxy (some n.upstream) none

theorem buildRoute_serves {config : Conf.Config} {layers : Lib.OrdMap Str Routing.CacheLayer} {rd : Conf.RouteDef}
    {n : Entry} (h : Serves rd n) : Conf.buildRoute config layers rd = some n.served := by
  rw [Conf.buildRoute, h.handler, map_some, h.kind, h.pattern, h.method, h.mwSpecs]
  rfl

/-! ## Patterns of matches -/

theorem getLast?_trimEndMatches (s : Str) (c : Char) : (s.trimEndMatches c).getLast? ≠ some c := by
  intro h
  have hne : s.trimEndMatches c ≠ [] := by
    intro hnil
    rw [hnil] at h
    cases h
  rw [getLast?_eq_some_getLast hne] at h
  exact rdropWhile_last_not (· == c) s hne (beq_iff_eq.mpr (Option.some.inj h))

theorem prefixOf_prefixToGlob (value : Str) : prefixOf (prefixToGlob value) = value.trimEndMatches '/' := by
  have hlast := getLast?_trimEndMatches value '/'
  rw [prefixToGlob]
  generalize value.trimEndMatches '/' = t at hlast
  split
  · rename_i ht
    rw [ht]
    decide
  · have hstar : Str.stripSuffix (t ++ "/*") "*" = some (t ++ "/") := by
      refine isSuffixOf?_eq_some_iff_append_eq.mpr ?_
      rw [append_assoc]
      rfl
    have hslash : Str.stripSuffix (t ++ "/") "/" = some t :=
      isSuffixOf?_eq_some_iff_append_eq.mpr rfl
    have hne : t ≠ "/" := by
      rintro rfl
      exact hlast rfl
    rw [prefixOf, hstar]
    simp only [getD_some, hslash, hne, if_false]

theorem withSlash_trimEndMatches (value : Str) :
    withSlash (value.trimEndMatches '/') = value.trimEndMatches '/' ++ ['/'] := by
  rw [withSlash, if_neg (getLast?_trimEndMatches value '/')]

namespace HTTPRouteMatch

theorem matchPattern_exact (h : m.isExact) : matchPattern m = (.Exact, m.value) := by
  rw [isExact] at h
  rw [matchPattern, value]
  cases hp : m.path with
  | none => rw [hp] at h; cases h
  | some p =>
    rw [hp, any_some] at h
    simp only [h, if_true, map_some, getD_some]

theorem matchPattern_prefix (h : m.isExact = false) :
    (matchPattern m).1 = .Prefix ∧ (matchPattern m).2 = prefixToGlob m.value := by
  rw [isExact] at h
  rw [matchPattern, value]
  cases hp : m.path with
  | none => exact ⟨rfl, by decide⟩
  | some p =>
    rw [hp, any_some] at h
    simp only [h, Bool.false_eq_true, if_false, map_some, getD_some, and_self]

/-- What a match counts for in the router. -/
def points (m : HTTPRouteMatch) : Nat := if m.isExact then 1000000 else 1000 + m.trimmed.len

end HTTPRouteMatch

/-- The length of a prefix keeps its score below that of an exact match. -/
def ShortValue (m : HTTPRouteMatch) : Prop := m.value.len < 900000

theorem len_trimmed_le (m : HTTPRouteMatch) : m.trimmed.len ≤ m.value.len := by
  obtain ⟨t, ht⟩ := rdropWhile_prefix (· == '/') m.value
  have hlen : m.value.len = m.trimmed.len + Str.len t := by
    rw [trimmed, Str.trimEndMatches, Str.len, Str.len, Str.len]
    nth_rewrite 1 [← ht]
    rw [map_append, sum_append]
  omega

theorem score_served (hm : ShortValue m) (up path method : Str) :
    (Entry.ofMatch up m).served.score path method =
      if m.Applies path method then some m.points else none := by
  have hlen := len_trimmed_le m
  rw [ShortValue] at hm
  have hmethod : (Entry.ofMatch up m).served.method.any (fun s => !s.eqIgnoreAsciiCase method) ↔
      ¬ ∀ s ∈ m.method, s.eqIgnoreAsciiCase method := by
    show ((m.method.map Str.toAsciiUppercase).map Str.toAsciiUppercase).any _ ↔ _
    cases m.method with
    | none => simp
    | some s => simp [Str.eqIgnoreAsciiCase_toAsciiUppercase]
  rw [Route.score]
  by_cases hmeth : ∀ s ∈ m.method, s.eqIgnoreAsciiCase method
  · rw [if_neg (fun h => hmethod.mp h hmeth)]
    cases hex : m.isExact with
    | true =>
      have hpat := matchPattern_exact hex
      simp only [Entry.served, Entry.ofMatch, hpat, MatchKind.toFlow, Applies, hex, if_true,
        points]
      by_cases hv : m.value = path
      · rw [if_pos hv, if_pos ⟨hmeth, hv⟩]
      · rw [if_neg hv, if_neg (fun h => hv h.2)]
    | false =>
      obtain ⟨hkind, hpat⟩ := matchPattern_prefix hex
      have hpre : prefixOf (prefixToGlob m.value) = m.trimmed := prefixOf_prefixToGlob m.value
      have hslash : withSlash m.trimmed = m.trimmed ++ ['/'] := withSlash_trimEndMatches m.value
      have hlt : m.trimmed.len < 2 ^ 32 := by omega
      have hmod : (1000 + m.trimmed.len) % 2 ^ 32 = 1000 + m.trimmed.len := Nat.mod_eq_of_lt (by omega)
      simp only [Entry.served, Entry.ofMatch, hkind, hpat, MatchKind.toFlow, hpre, hslash, Applies,
        hex, Bool.false_eq_true, if_false, points, hlt, if_true, hmod, SegmentPrefix]
      by_cases hv : m.trimmed = [] ∨ path = m.trimmed ∨ m.trimmed ++ ['/'] <+: path
      · rw [if_pos hv, if_pos ⟨hmeth, hv⟩]
      · rw [if_neg hv, if_neg (fun h => hv h.2)]
  · rw [if_pos (hmethod.mpr hmeth), if_neg (fun h => hmeth h.1)]

/-! ## The order of entries -/

theorem key_lt_of_method {up up' : Str} {m' : HTTPRouteMatch} (hpath : m'.SamePath m) (hm' : m'.method.isSome)
    (hm : m.method = none) (hne : m'.method ≠ some []) : (Entry.ofMatch up m).key < (Entry.ofMatch up' m').key := by
  have hpat : matchPattern m' = matchPattern m := by
    rcases hpath with ⟨h', h, hv⟩ | ⟨h', h, hv⟩
    · rw [matchPattern_exact h', matchPattern_exact h, hv]
    · obtain ⟨h1, h2⟩ := matchPattern_prefix h'
      obtain ⟨h3, h4⟩ := matchPattern_prefix h
      have hglob : prefixToGlob m'.value = prefixToGlob m.value := by
        rw [trimmed, trimmed] at hv
        rw [prefixToGlob, prefixToGlob, hv]
      exact Prod.ext (h1.trans h3.symm) (h2.trans (hglob.trans h4.symm))
  obtain ⟨s, hs⟩ := isSome_iff_exists.mp hm'
  have hsne : s.toAsciiUppercase ≠ [] := by
    intro h
    rw [map_eq_nil_iff.mp h] at hs
    exact hne hs
  obtain ⟨c, t, hct⟩ := exists_cons_of_ne_nil hsne
  have hmethod : ([] : Str) < s.toAsciiUppercase := by
    rw [hct]
    exact nil_lt_cons c t
  simp only [Entry.key, Entry.ofMatch, hpat, hm, hs, map_none, map_some, getD_none,
    getD_some, Prod.Lex.toLex_lt_toLex, lt_self_iff_false, true_and, false_or, hmethod, true_or]

/-! ## Routes of a site -/

section Site

variable {ps : List Placement} {host path method : Str}

/-- What the router knows of a planned site. -/
def SitePlan.served (hosts : List Str) (s : SitePlan) : SiteRoutes := ⟨hosts, s.routes.values.map Entry.served⟩

/-- The entries that apply, in order, with their scores. -/
def scored (entries : List Entry) (path method : Str) : List (Nat × Route) :=
  entries.filterMap (fun n => (n.served.score path method).map (fun sc => (sc, n.served)))

theorem routeIn_served (hosts : List Str) (s : SitePlan) :
    Router.routeIn (s.served hosts) path method =
      (Lib.maxByKey Prod.fst (scored s.routes.values path method)).map (·.2) := by
  rw [Router.routeIn, SitePlan.served, scored, filterMap_map]
  rfl

variable (hmethods : ∀ p ∈ ps, ∀ m ∈ p.toEmitted.rule.effective, m.method ≠ some [])
  (hshort : ∀ p ∈ ps, ∀ m ∈ p.toEmitted.rule.effective, ShortValue m)

include hmethods

theorem mem_values_ofMatch {p : Placement} (hp : p ∈ ps) (hh : p.host = host) (hm : m ∈ p.toEmitted.rule.effective) :
    Entry.ofMatch p.toEmitted.upName m ∈ (sitePlan ps host).routes.values := by
  refine (mem_sitePlan_values ?_).mpr ⟨p, hp, hh, mem_map.mpr ⟨m, hm, rfl⟩⟩
  intro q hq n hn
  obtain ⟨m', hm', rfl⟩ := mem_map.mp hn
  intro h
  obtain ⟨s, hs, hup⟩ := map_eq_some_iff.mp h
  rw [map_eq_nil_iff.mp hup] at hs
  exact hmethods q hq m' hm' hs

include hshort

theorem routeIn_eq_none {hosts : List Str}
    (h : Router.routeIn ((sitePlan ps host).served hosts) path method = none) :
    ∀ p ∈ ps, p.host = host → ∀ m ∈ p.toEmitted.rule.effective, ¬ m.Applies path method := by
  intro p hp hh m hm ha
  rw [routeIn_served, map_eq_none_iff, maxByKey_eq_none, scored, filterMap_eq_nil_iff] at h
  have hn := h _ (mem_values_ofMatch hmethods hp hh hm)
  rw [score_served (hshort p hp m hm), if_pos ha] at hn
  cases hn

theorem routeIn_eq_some {hosts : List Str} {r : Route}
    (h : Router.routeIn ((sitePlan ps host).served hosts) path method = some r) :
    ∃ p m, Wins ps host path method p m ∧ r.handler = .proxy (some p.toEmitted.upName) none := by
  rw [routeIn_served] at h
  obtain ⟨⟨sc, r'⟩, hmax, rfl⟩ := map_eq_some_iff.mp h
  have hle := maxByKey_max hmax
  obtain ⟨pre, post, hsplit, -, hpost⟩ := maxByKey_eq_some hmax
  obtain ⟨l1, l2, hvalues, -, hl2⟩ := filterMap_eq_append_iff.mp hsplit
  obtain ⟨l3, n, l4, rfl, -, hn, rfl⟩ := filterMap_eq_cons_iff.mp hl2
  have hmem : n ∈ (sitePlan ps host).routes.values := by rw [hvalues]; simp
  obtain ⟨⟨k, n⟩, hk, rfl⟩ := mem_map.mp hmem
  obtain ⟨-, p, hp, hh, hnp⟩ := mem_sitePlan_routes hk
  obtain ⟨m, hm, rfl⟩ := mem_map.mp hnp
  dsimp only at hn hvalues
  rw [score_served (hshort p hp m hm)] at hn
  by_cases ha : m.Applies path method
  · rw [if_pos ha] at hn
    cases hn
    refine ⟨p, m, ⟨hp, hh, hm, ha, ?_⟩, rfl⟩
    intro q hq hqh m' hm' ha' hbeats
    have hmem' := mem_values_ofMatch hmethods hq hqh hm'
    have hscore : (Entry.ofMatch q.toEmitted.upName m').served.score path method = some m'.points := by
      rw [score_served (hshort q hq m' hm'), if_pos ha']
    have hle' : m'.points ≤ m.points := hle (m'.points, (Entry.ofMatch q.toEmitted.upName m').served)
      (mem_filterMap.mpr ⟨_, hmem', by rw [hscore]; rfl⟩)
    have hlen := len_trimmed_le m
    have hs := hshort p hp m hm
    rw [ShortValue] at hs
    rcases hbeats with ⟨hex', hex⟩ | ⟨hex', hex, hlt⟩ | ⟨hpath, hsome, hnone⟩
    · simp only [points, hex, hex', if_true, Bool.false_eq_true, if_false] at hle'
      omega
    · simp only [points, hex, hex', Bool.false_eq_true, if_false] at hle'
      omega
    · -- of equal paths the one with a method stands later, and the router takes the last
      have hpoints : m'.points = m.points := by
        rcases hpath with ⟨hex', hex, -⟩ | ⟨hex', hex, ht⟩
        · rw [points, points, hex, hex', if_pos rfl, if_pos rfl]
        · rw [points, points, hex, hex', ht]
      have hkey : (Entry.ofMatch p.toEmitted.upName m).key < (Entry.ofMatch q.toEmitted.upName m').key :=
        key_lt_of_method hpath hsome hnone (hmethods q hq m' hm')
      have hsorted := sorted_sitePlan_values ps host
      rw [hvalues, ← append_assoc] at hmem' hsorted
      rcases mem_append.mp hmem' with hbefore | hafter
      · have := (pairwise_append.mp hsorted).2.2 _ hbefore _ mem_cons_self
        exact absurd (hkey.trans this) (lt_irrefl _)
      · rcases mem_cons.mp hafter with heq | hafter
        · rw [heq] at hkey
          exact absurd hkey (lt_irrefl _)
        · have := hpost (m'.points, (Entry.ofMatch q.toEmitted.upName m').served)
            (mem_filterMap.mpr ⟨_, hafter, by rw [hscore]; rfl⟩)
          simp only [hpoints, lt_self_iff_false] at this
  · rw [if_neg ha] at hn
    cases hn

end Site

end Pulsate.K8s
