import Pulsate.Config.Lemmas.Addresses
import Pulsate.Config.Lemmas.Predicates
import Pulsate.Config.Lemmas.Snapshot
import Pulsate.Lib.Except

/-!
# Results about compiled configurations
-/

namespace Pulsate.Conf

open List Lib Option

/-! ## Acceptance -/

/-- A text that parses is accepted exactly if it keeps the rules. An accepted one loses no route on the way into the
router; a rejected one is answered with at least one diagnostic. -/
theorem accepted_iff (env : Str → Option Str) (text : Str) (g : Nat) (ast : Flow.Ast) (h : Flow.parse text = .ok ast) :
    ((∃ compiled, compile env text g = .ok compiled) ↔ Acceptable ast) ∧
    (∀ compiled, compile env text g = .ok compiled →
      List.Forall₂ (fun (b : Block) (site : Routing.SiteRoutes) =>
          List.Forall₂ (fun rt r => builtRoute compiled.config rt = some r) (routesIn b.body) site.routes)
        (blocks "site" ast.stmts) (buildRouter compiled.config).sites) ∧
    ∀ e, compile env text g = .error e → ∃ ds, e = .diags ds ∧ ds ≠ [] := by
  rw [compile_of_parse g h]
  by_cases hnil : findings env ast = []
  · rw [if_pos hnil]
    have hacc := findings_eq_nil.mp hnil
    refine ⟨iff_of_true ⟨_, rfl⟩ hacc, fun compiled hc => ?_, fun e he => ?_⟩
    · cases hc
      exact buildRouter_routes hacc
    · cases he
  · rw [if_neg hnil]
    refine ⟨⟨?_, fun hacc => absurd (findings_eq_nil.mpr hacc) hnil⟩, fun _ hc => ?_, fun e he => ?_⟩
    · rintro ⟨_, hc⟩
      cases hc
    · cases hc
    · cases he
      exact ⟨_, rfl, hnil⟩

theorem exists_compiled {env : Str → Option Str} {text : Str} {g : Nat} (h : (compile env text g).toOption.isSome) :
    ∃ ast compiled, Flow.parse text = .ok ast ∧ compile env text g = .ok compiled := by
  obtain ⟨compiled, hsome⟩ := isSome_iff_exists.mp h
  have hcompile := toOption_eq_some.mp hsome
  obtain ⟨ast, hparse, -⟩ := compile_inv hcompile
  exact ⟨ast, compiled, hparse, hcompile⟩

/-- A text that was read and found to be as the check asks. -/
abbrev Sample (check : Str → Bool) : Type := {text : Str // check text}

def plainText : Sample (fun text => (compile (fun _ => none) text 0).toOption.isSome) :=
  ⟨"site a.test \x7b\n  route /* ~> respond(status=200)\n\x7d\n", by decide +kernel⟩

theorem accepted_iff_plain : ∃ ast, Flow.parse plainText = .ok ast ∧ Acceptable ast := by
  obtain ⟨ast, compiled, hparse, hcompile⟩ := exists_compiled plainText.2
  exact ⟨ast, hparse, (accepted_iff (fun _ => none) plainText 0 ast hparse).1.mp ⟨compiled, hcompile⟩⟩

/-! ## Guards -/

/-- A route of an accepted text has all its guards exactly if their arguments can be read, and a request meets them in
the order of the text exactly if, besides, no guard follows a cache. -/
theorem guards_kept_iff (env : Str → Option Str) (text : Str) (g : Nat) (ast : Flow.Ast) (compiled : Compiled)
    (hparse : Flow.parse text = .ok ast) (h : compile env text g = .ok compiled) (rt : Flow.Route)
    (hrt : rt ∈ siteRoutes ast) :
    ∃ r, builtRoute compiled.config rt = some r ∧ (Kept ast rt r ↔ WellArgued ast rt) ∧
      (KeptInOrder ast rt r ↔
        WellArgued ast rt ∧ ∀ s ∈ (guards rt).dropLast, s.name.node ≠ "cache") := by
  obtain ⟨ast', hparse', rfl, hacc⟩ := acceptable_of_compile h
  cases hparse.symm.trans hparse'
  obtain ⟨r, hr⟩ := exists_builtRoute (lower env ast).1 (hacc.ends rt hrt)
  have hkept := kept_iff hacc.caches hr
  refine ⟨r, hr, hkept, fun hin => ?_, fun hin => ?_⟩
  · obtain ⟨hk, hlast⟩ := kept_of_keptInOrder hin
    exact ⟨hkept.mp hk, hlast⟩
  · exact keptInOrder_of_kept hr (hkept.mpr hin.1) hin.2

/-- A limit written as a string. -/
def quotedText : Sample (fun text => (compile (fun _ => none) text 0).toOption.any (fun compiled =>
    (writtenRoutes text).any (fun rt => (builtRoute compiled.config rt).any (fun r => decide (r.middleware = []) &&
      decide (((guards rt).filter (fun s => s.name.node ≠ "cache".toList)).length = 1))))) :=
  ⟨"site a.test \x7b\n  route /* ~> rate_limit(\"100/m\") ~> respond(status=200)\n\x7d\n", by decide +kernel⟩

/-- The text is accepted, and its route has no limit. -/
theorem limit_dropped : ∃ ast compiled rt r, Flow.parse quotedText = .ok ast ∧
    compile (fun _ => none) quotedText 0 = .ok compiled ∧ rt ∈ siteRoutes ast ∧ builtRoute compiled.config rt = some r ∧
    r.middleware = [] ∧ ¬ Kept ast rt r ∧ ¬ KeptInOrder ast rt r := by
  obtain ⟨compiled, hcompile, hany⟩ := (any_eq_true _ _).mp quotedText.2
  obtain ⟨rt, hrt, hany⟩ := any_eq_true.mp hany
  obtain ⟨r, hr, hfacts⟩ := (any_eq_true _ _).mp hany
  rw [Bool.and_eq_true, decide_eq_true_eq, decide_eq_true_eq] at hfacts
  obtain ⟨hempty, hone⟩ := hfacts
  have hcompile := toOption_eq_some.mp hcompile
  obtain ⟨ast, hparse, -⟩ := compile_inv hcompile
  rw [writtenRoutes, hparse] at hrt
  have hlost : ¬ Kept ast rt r := by
    intro hkept
    have hlen := hkept.middleware.length_eq
    rw [hone, hempty] at hlen
    cases hlen
  exact ⟨ast, compiled, rt, r, hparse, hcompile, hrt, hr, hempty, hlost, fun hin => hlost (kept_of_keptInOrder hin).1⟩

def guardedText : Sample (fun text => (compile (fun _ => none) text 0).toOption.isSome &&
    (writtenRoutes text).all (fun rt => rt.steps.all (fun s =>
      decide (s.name.node = "strip_prefix".toList) && (firstPositionalStr s.args).isSome ||
        decide (s.name.node ∉ protective)))) :=
  ⟨"site a.test \x7b\n  route /* ~> strip_prefix(\"/a\") ~> strip_prefix(\"/b\") ~> respond(status=200)\n\x7d\n",
    by decide +kernel⟩

theorem guards_kept_iff_stripped : ∃ ast compiled, Flow.parse guardedText = .ok ast ∧
    compile (fun _ => none) guardedText 0 = .ok compiled ∧
    ∀ rt ∈ siteRoutes ast, ∃ r, builtRoute compiled.config rt = some r ∧ Kept ast rt r ∧ KeptInOrder ast rt r := by
  obtain ⟨hok, hcheck⟩ := Bool.and_eq_true_iff.mp guardedText.2
  obtain ⟨ast, compiled, hparse, hcompile⟩ := exists_compiled hok
  rw [writtenRoutes, hparse] at hcheck
  have hsteps : ∀ rt ∈ siteRoutes ast, ∀ s ∈ rt.steps, (s.name.node = "strip_prefix".toList ∧
      ∃ path, firstPositional s.args = some (.str path)) ∨ s.name.node ∉ protective := by
    intro rt hrt s hs
    have hs := all_eq_true.mp (all_eq_true.mp hcheck rt hrt) s hs
    rw [Bool.or_eq_true, Bool.and_eq_true, decide_eq_true_eq, decide_eq_true_eq, isSome_iff_exists] at hs
    simpa only [firstPositionalStr_eq_some] using hs
  refine ⟨ast, compiled, hparse, hcompile, fun rt hrt => ?_⟩
  obtain ⟨r, hr, hkept, horder⟩ := guards_kept_iff _ guardedText 0 ast compiled hparse hcompile rt hrt
  have hother : ∀ name ∈ protective, name ≠ "strip_prefix".toList → ∀ s ∈ rt.steps, s.name.node ≠ name := by
    intro name hp hne s hs hname
    rcases hsteps rt hrt s hs with ⟨h, -⟩ | h
    · exact hne (hname.symm.trans h)
    · exact h (hname ▸ hp)
  have hargued : WellArgued ast rt := by
    constructor
    · intro s hs hname
      rcases hsteps rt hrt s hs with ⟨-, harg⟩ | h
      · exact harg
      · exact absurd (by rw [hname]; decide) h
    · exact fun s hs hname => absurd hname (hother _ (by decide) (by decide) s hs)
    · exact fun s hs hname => absurd hname (hother _ (by decide) (by decide) s hs)
    · exact fun s hs hname => absurd hname (hother _ (by decide) (by decide) s hs)
    · exact fun s hs t _ hname => absurd hname (hother _ (by decide) (by decide) s hs)
  refine ⟨r, hr, hkept.mpr hargued, horder.mpr ⟨hargued, fun s hs => ?_⟩⟩
  exact hother _ (by decide) (by decide) s (mem_guards.mp (mem_of_mem_dropLast hs)).1

/-! ## Allowed addresses -/

/-- A route with a firewall blocks every address outside of the entries behind `allow` exactly if the last list of the firewall has
a range, or else its denied ranges and the other firewalls of the route catch these addresses. -/
theorem failsClosed_iff (env : Str → Option Str) (text : Str) (g : Nat) (ast : Flow.Ast) (compiled : Compiled)
    (hparse : Flow.parse text = .ok ast) (h : compile env text g = .ok compiled) (rt : Flow.Route) (hrt : rt ∈ siteRoutes ast)
    (s : Flow.Step) (hs : s ∈ rt.steps) (b : Block) (hb : b ∈ blocks "waf" ast.stmts) (hasks : Asks s (.waf b.name)) :
    ∃ r, builtRoute compiled.config rt = some r ∧ (FailsClosed b r ↔ (b.ranges "allow" = [] → ∀ ip, b.Outside ip →
      (∃ c ∈ b.ranges "deny", c.contains ip.toCanonical) ∨
        ∃ s' ∈ rt.steps, ∃ b' ∈ blocks "waf" ast.stmts, b'.name ≠ b.name ∧ Asks s' (.waf b'.name) ∧ b'.TurnsAway ip)) := by
  obtain ⟨ast', hparse', rfl, hacc⟩ := acceptable_of_compile h
  cases hparse.symm.trans hparse'
  obtain ⟨r, hr⟩ := exists_builtRoute (lower env ast).1 (hacc.ends rt hrt)
  refine ⟨r, hr, ?_⟩
  unfold FailsClosed
  simp only [blocked_iff hacc.wafs hr]
  constructor
  · intro hclosed hnone ip hout
    obtain ⟨s', hs', b', hb', hasks', hagainst⟩ := hclosed ip hout
    by_cases hname : b'.name = b.name
    · cases inj_on_of_nodup_map hacc.wafs hb' hb hname
      rw [Block.TurnsAway, if_pos hnone] at hagainst
      exact .inl hagainst
    · exact .inr ⟨s', hs', b', hb', hname, hasks', hagainst⟩
  · intro hcaught ip hout
    by_cases hnone : b.ranges "allow" = []
    · rcases hcaught hnone ip hout with hdeny | ⟨s', hs', b', hb', -, hasks', hagainst⟩
      · refine ⟨s, hs, b, hb, hasks, ?_⟩
        rwa [Block.TurnsAway, if_pos hnone]
      · exact ⟨s', hs', b', hb', hasks', hagainst⟩
    · exact ⟨s, hs, b, hb, hasks, turnsAway_of_outside hnone hout⟩

/-- A route behind a firewall with this list. -/
def allowText (entry : Str) : Str :=
  "waf w \x7b\n  ip \x7b\n    allow [\"" ++ entry ++ "\"]\n  \x7d\n\x7d\n" ++
    "site a.test \x7b\n  route /* ~> waf(@w) ~> respond(status=200)\n\x7d\n"

/-- The text is accepted, and has a route with a firewall for which this holds. -/
def hasFirewall (text : Str) (p : Block → Routing.Route → Bool) : Bool :=
  (compile (fun _ => none) text 0).toOption.any (fun compiled => (Flow.parse text).toOption.any (fun ast =>
    (siteRoutes ast).any (fun rt => (builtRoute compiled.config rt).any (fun r => rt.steps.any (fun s =>
      (blocks "waf" ast.stmts).any (fun b => decide (buildMiddleware s = some (.waf b.name)) && p b r))))))

theorem of_hasFirewall {text : Str} {p : Block → Routing.Route → Bool} (h : hasFirewall text p) :
    ∃ ast compiled, Flow.parse text = .ok ast ∧ compile (fun _ => none) text 0 = .ok compiled ∧ ∃ rt ∈ siteRoutes ast,
      ∃ s ∈ rt.steps, ∃ b ∈ blocks "waf" ast.stmts, Asks s (.waf b.name) ∧ ∃ r, builtRoute compiled.config rt = some r ∧
        p b r := by
  obtain ⟨compiled, hcompile, h⟩ := (any_eq_true _ _).mp h
  obtain ⟨ast, hparse, h⟩ := (any_eq_true _ _).mp h
  obtain ⟨rt, hrt, h⟩ := any_eq_true.mp h
  obtain ⟨r, hr, h⟩ := (any_eq_true _ _).mp h
  obtain ⟨s, hs, h⟩ := any_eq_true.mp h
  obtain ⟨b, hb, h⟩ := any_eq_true.mp h
  rw [Bool.and_eq_true, decide_eq_true_eq] at h
  exact ⟨ast, compiled, toOption_eq_some.mp hparse, toOption_eq_some.mp hcompile, rt, hrt, s, hs, b, hb,
    asks_of_buildMiddleware h.1, r, hr, h.2⟩

/-- A list whose only mask is too long. -/
def longMask : Sample (fun text => hasFirewall text (fun b r => !b.allowEntries.isEmpty &&
    b.allowEntries.all (fun v => (rangeOf v).isNone) && r.middleware.all (fun m => !isIp m))) :=
  ⟨allowText "10.0.0.0/33", by decide +kernel⟩

/-- A mask that is too long lets everybody in. -/
theorem allow_fails_open : ∃ ast compiled rt s b r, Flow.parse (allowText "10.0.0.0/33") = .ok ast ∧
    compile (fun _ => none) (allowText "10.0.0.0/33") 0 = .ok compiled ∧ rt ∈ siteRoutes ast ∧ s ∈ rt.steps ∧
    b ∈ blocks "waf" ast.stmts ∧ Asks s (.waf b.name) ∧ b.allowEntries ≠ [] ∧ builtRoute compiled.config rt = some r ∧
    (∀ ip, b.Outside ip) ∧ ¬ FailsClosed b r := by
  obtain ⟨ast, compiled, hparse, hcompile, rt, hrt, s, hs, b, hb, hasks, r, hr, hfacts⟩ := of_hasFirewall longMask.2
  rw [Bool.and_eq_true, Bool.and_eq_true] at hfacts
  obtain ⟨⟨hentries, hnone⟩, hmw⟩ := hfacts
  have hout : ∀ ip, b.Outside ip := by
    intro ip v hv c hc
    have hv := all_eq_true.mp hnone v hv
    rw [hc] at hv
    cases hv
  refine ⟨ast, compiled, rt, s, b, r, hparse, hcompile, hrt, hs, hb, hasks, by simpa using hentries, hr, hout, fun hclosed => ?_⟩
  obtain ⟨acl, hacl, -⟩ := hclosed (.v4 0) (hout _)
  cases all_eq_true.mp hmw _ hacl

def goodMask : Sample (fun text => hasFirewall text (fun b _ => !(b.ranges "allow").isEmpty)) :=
  ⟨allowText "10.0.0.0/8", by decide +kernel⟩

theorem failsClosed_iff_ten : ∃ ast compiled rt b r, Flow.parse (allowText "10.0.0.0/8") = .ok ast ∧
    compile (fun _ => none) (allowText "10.0.0.0/8") 0 = .ok compiled ∧ rt ∈ siteRoutes ast ∧ b ∈ blocks "waf" ast.stmts ∧
    builtRoute compiled.config rt = some r ∧ FailsClosed b r := by
  obtain ⟨ast, compiled, hparse, hcompile, rt, hrt, s, hs, b, hb, hasks, -, -, hfacts⟩ := of_hasFirewall goodMask.2
  obtain ⟨r, hr, hclosed⟩ := failsClosed_iff (fun _ => none) (allowText "10.0.0.0/8") 0 ast compiled hparse hcompile rt hrt s hs b hb
    hasks
  exact ⟨ast, compiled, rt, b, r, hparse, hcompile, hrt, hb, hr, hclosed.mpr (fun hnone => absurd hnone (by simpa using hfacts))⟩

/-! ## Settings -/

/-- A text with a value of a wrong type, unit or range is rejected and the settings of an accepted one are as written,
exactly if the text breaks some other rule or has neither such a value nor one that the configuration cannot hold. -/
theorem settings_as_written_iff (env : Str → Option Str) (text : Str) (g : Nat) (ast : Flow.Ast)
    (h : Flow.parse text = .ok ast) :
    ((¬ WellTyped ast → ∃ e, compile env text g = .error e) ∧
      ∀ compiled, compile env text g = .ok compiled → AsWritten env ast compiled.config) ↔
    (Acceptable ast → WellTyped ast ∧ Expressible ast) := by
  rw [compile_of_parse g h]
  by_cases hnil : findings env ast = []
  · rw [if_pos hnil]
    have hacc := findings_eq_nil.mp hnil
    constructor
    · rintro ⟨hreject, hwritten⟩ -
      have htyped : WellTyped ast := by
        by_contra hnot
        obtain ⟨e, he⟩ := hreject hnot
        cases he
      exact ⟨htyped, (asWritten_iff htyped).mp (hwritten _ rfl)⟩
    · intro hcond
      obtain ⟨htyped, hexpr⟩ := hcond hacc
      refine ⟨fun hnot => absurd htyped hnot, fun compiled hc => ?_⟩
      cases hc
      exact (asWritten_iff htyped).mpr hexpr
  · rw [if_neg hnil]
    refine iff_of_true ⟨fun _ => ⟨_, rfl⟩, fun _ hc => ?_⟩ (fun hacc => absurd (findings_eq_nil.mpr hacc) hnil)
    cases hc

/-- A time with a unit there is not. -/
def minutesText : Sample (fun text =>
    (compile (fun _ => none) text 0).toOption.any (fun compiled =>
      decide (compiled.config.caches.map (·.defaultTtlSecs) = [60])) &&
    (Flow.parse text).toOption.all (fun ast => (blocks "cache" ast.stmts).any (fun b =>
      (values ["default_ttl"] b.body).any (fun v => (asStr v).isSome)))) :=
  ⟨"cache www \x7b\n  default_ttl 5min\n\x7d\n", by decide +kernel⟩

/-- The text is accepted, with the default in place of the time. -/
theorem unit_ignored : ∃ ast compiled, Flow.parse minutesText = .ok ast ∧
    compile (fun _ => none) minutesText 0 = .ok compiled ∧ ¬ WellTyped ast ∧
    compiled.config.caches.map (·.defaultTtlSecs) = [60] := by
  obtain ⟨hcheck, hvalue⟩ := Bool.and_eq_true_iff.mp minutesText.2
  obtain ⟨compiled, hcompile, hsecs⟩ := (any_eq_true _ _).mp hcheck
  have hcompile := toOption_eq_some.mp hcompile
  obtain ⟨ast, hparse, -⟩ := compile_inv hcompile
  refine ⟨ast, compiled, hparse, hcompile, fun htyped => ?_, of_decide_eq_true hsecs⟩
  rw [hparse] at hvalue
  obtain ⟨b, hb, hany⟩ := any_eq_true.mp hvalue
  obtain ⟨v, hv, hstr⟩ := any_eq_true.mp hany
  obtain ⟨d, rfl⟩ := (htyped.caches b hb).defaultTtl v hv
  cases hstr

def isWholeSeconds : Flow.Value → Bool
  | .duration d => d.nanos == 0
  | _ => false

def cachedText : Sample (fun text => (compile (fun _ => none) text 0).toOption.isSome &&
    (Flow.parse text).toOption.all (fun ast =>
      (values ["flow_version"] ast.stmts).isEmpty && (blocks "upstream" ast.stmts).isEmpty &&
        (blocks "waf" ast.stmts).isEmpty && (blocks "cache" ast.stmts).all (fun b =>
          (values ["methods"] b.body).isEmpty && (values ["vary"] b.body).isEmpty &&
            (values ["stale_while_revalidate"] b.body).isEmpty &&
              (values ["default_ttl"] b.body).all isWholeSeconds))) :=
  ⟨"cache www \x7b\n  default_ttl 5m\n\x7d\n", by decide +kernel⟩

theorem settings_as_written_iff_cached : ∃ ast compiled, Flow.parse cachedText = .ok ast ∧
    compile (fun _ => none) cachedText 0 = .ok compiled ∧ AsWritten (fun _ => none) ast compiled.config := by
  obtain ⟨hok, hcheck⟩ := Bool.and_eq_true_iff.mp cachedText.2
  obtain ⟨ast, compiled, hparse, hcompile⟩ := exists_compiled hok
  refine ⟨ast, compiled, hparse, hcompile, ?_⟩
  refine ((settings_as_written_iff _ cachedText 0 ast hparse).mpr (fun _ => ?_)).2 compiled hcompile
  rw [hparse] at hcheck
  simp only [Except.toOption, all_some, Bool.and_eq_true, List.isEmpty_iff, List.all_eq_true] at hcheck
  obtain ⟨⟨⟨hversion, hups⟩, hwafs⟩, hcaches⟩ := hcheck
  refine ⟨⟨?_, ?_, fun b hb => ?_, ?_⟩, ⟨?_, ?_, fun b hb d hd => ?_, fun b hb d hd => ?_⟩⟩
  · rw [hversion]; exact forall_mem_nil _
  · rw [hups]; exact forall_mem_nil _
  · obtain ⟨⟨⟨hmethods, hvary⟩, hswr⟩, httl⟩ := hcaches b hb
    refine ⟨fun v hv => ?_, ?_, ?_, ?_⟩
    · have hwhole := httl v hv
      cases v with
      | duration d => exact ⟨d, rfl⟩
      | _ => cases hwhole
    · rw [hmethods]; exact forall_mem_nil _
    · rw [hvary]; exact forall_mem_nil _
    · rw [hswr]; exact forall_mem_nil _
  · rw [hwafs]; exact forall_mem_nil _
  · rw [hups]; exact forall_mem_nil _
  · rw [hups]; exact forall_mem_nil _
  · exact beq_iff_eq.mp ((hcaches b hb).2 _ (mem_values_of_lastValue hd))
  · have hmem := mem_values_of_lastValue hd
    rw [(hcaches b hb).1.2] at hmem
    cases hmem

/-! ## Predicates -/

/-- The predicates of an accepted text restrict its routes exactly if each of them follows from the first method its
route names, or asks for nothing. -/
theorem predicates_restrict_iff (env : Str → Option Str) (text : Str) (g : Nat) (compiled : Compiled)
    (h : compile env text g = .ok compiled) :
    (∀ rt ∈ writtenRoutes text, Restricted compiled.config rt) ↔
      ∀ rt ∈ writtenRoutes text, ∀ p ∈ rt.matcher.predicates, Redundant rt p := by
  obtain ⟨ast, hparse, -, hacc⟩ := acceptable_of_compile h
  have hroutes : writtenRoutes text = siteRoutes ast := by rw [writtenRoutes, hparse]
  rw [hroutes]
  refine forall₂_congr (fun rt hrt => ?_)
  obtain ⟨r, hr⟩ := exists_builtRoute _ (hacc.ends rt hrt)
  exact restricted_iff hr

/-- A site with one route, for canary requests only. -/
def canaryText : Sample (fun text => (compile (fun _ => none) text 0).toOption.any (fun compiled =>
    (writtenRoutes text).any (fun rt =>
      decide (builtRoute compiled.config rt = (buildRouter compiled.config).route "a.test" "/" "GET") &&
        ((buildRouter compiled.config).route "a.test" "/" "GET").isSome &&
        rt.matcher.predicates.map (·.key) == ["header.x-canary".toList]))) :=
  ⟨"site a.test \x7b\n  route /* [header.x-canary=true] ~> respond(status=200)\n\x7d\n", by decide +kernel⟩

/-- A request without the header is routed to the route that asks for it. -/
theorem predicate_ignored : ∃ compiled rt r p, compile (fun _ => none) canaryText 0 = .ok compiled ∧
    rt ∈ writtenRoutes canaryText ∧ builtRoute compiled.config rt = some r ∧
    (buildRouter compiled.config).route "a.test" "/" "GET" = some r ∧
    p ∈ rt.matcher.predicates ∧ ¬ Holds p ⟨"a.test", "/", "GET", [], []⟩ := by
  obtain ⟨compiled, hcompile, hany⟩ := (any_eq_true _ _).mp canaryText.2
  obtain ⟨rt, hrt, hroute⟩ := any_eq_true.mp hany
  simp only [Bool.and_eq_true, decide_eq_true_eq, beq_iff_eq] at hroute
  obtain ⟨⟨hbuilt, hsome⟩, hkeys⟩ := hroute
  obtain ⟨r, hr⟩ := isSome_iff_exists.mp hsome
  obtain ⟨p, hp, hkey⟩ := map_eq_singleton_iff.mp hkeys
  refine ⟨compiled, rt, r, p, toOption_eq_some.mp hcompile, hrt, hbuilt.trans hr, hr, ?_, ?_⟩
  · rw [hp]
    exact mem_cons_self
  · have hheader : Str.stripPrefix "header.x-canary" "header." = some "x-canary".toList := by decide
    rw [Holds, hkey, if_neg (by decide), if_neg (by decide), hheader]
    rintro ⟨f, hf, -⟩
    cases hf

def methodText : Sample (fun text => (compile (fun _ => none) text 0).toOption.isSome &&
    (writtenRoutes text).all (fun rt => rt.matcher.predicates.all (fun p =>
      decide (p.key = "method".toList) && (rt.matcher.predicates.find? (·.key = "method".toList)).any
        (fun q => p.value.eqIgnoreAsciiCase q.value)))) :=
  ⟨"site a.test \x7b\n  route /* [method=GET] ~> respond(status=200)\n\x7d\n", by decide +kernel⟩

theorem predicates_restrict_iff_method : ∃ compiled, compile (fun _ => none) methodText 0 = .ok compiled ∧
    ∀ rt ∈ writtenRoutes methodText, Restricted compiled.config rt := by
  obtain ⟨hok, hcheck⟩ := Bool.and_eq_true_iff.mp methodText.2
  obtain ⟨-, compiled, -, hcompile⟩ := exists_compiled hok
  refine ⟨compiled, hcompile, (predicates_restrict_iff _ methodText 0 compiled hcompile).mpr (fun rt hrt p hp => ?_)⟩
  have hp' := all_eq_true.mp (all_eq_true.mp hcheck rt hrt) p hp
  rw [Bool.and_eq_true, decide_eq_true_eq] at hp'
  obtain ⟨hkey, hfirst⟩ := hp'
  cases hq : rt.matcher.predicates.find? (·.key = "method".toList) with
  | none =>
    rw [hq] at hfirst
    cases hfirst
  | some q =>
    rw [hq] at hfirst
    exact .inr ⟨hkey, .inr ⟨q, hq, hfirst⟩⟩

/-! ## Identity -/

/-- Two texts that differ and have one hash. -/
def Collides (s t : Str) : Prop := s ≠ t ∧ fnv1a s = fnv1a t

/-- Accepted texts whose trees differ in positions only have one identity exactly if the positions that are recorded are the
same, or the renderings collide. -/
theorem snapshot_identity_iff (env : Str → Option Str) (text text' : Str) (g g' : Nat) (ast ast' : Flow.Ast)
    (compiled compiled' : Compiled) (hparse : Flow.parse text = .ok ast) (hparse' : Flow.parse text' = .ok ast')
    (h : compile env text g = .ok compiled) (h' : compile env text' g' = .ok compiled')
    (herase : ast.erase = ast'.erase) :
    snapshotId compiled.config = snapshotId compiled'.config ↔
      recorded ast = recorded ast' ∨ Collides compiled.config.debug compiled'.config.debug := by
  obtain ⟨_, hp, rfl, -⟩ := compile_inv h
  cases hparse.symm.trans hp
  obtain ⟨_, hp', rfl, -⟩ := compile_inv h'
  cases hparse'.symm.trans hp'
  have hdebug : (lower env ast).1.debug = (lower env ast').1.debug ↔ recorded ast = recorded ast' := debug_eq_iff herase
  constructor
  · intro hid
    by_cases heq : (lower env ast).1.debug = (lower env ast').1.debug
    · exact .inl (hdebug.mp heq)
    · exact .inr ⟨heq, hid⟩
  · rintro (hrec | hcollides)
    · exact congrArg fnv1a (hdebug.mpr hrec)
    · exact hcollides.2

/-- The tree is that of `poolText`, at any positions. -/
def isPool (ast : Flow.Ast) : Bool :=
  match ast.stmts with
  | [.block kw [.positional ⟨.str name, _⟩] [] _] => kw.node = "upstream" ∧ name = "pool"
  | _ => false

theorem erase_of_isPool {ast : Flow.Ast} (h : isPool ast) : ast.erase =
    ⟨[.block ⟨"upstream", Flow.Span.zero⟩ [.positional ⟨.str "pool", Flow.Span.zero⟩] [] Flow.Span.zero]⟩ := by
  obtain ⟨stmts⟩ := ast
  unfold isPool at h
  split at h
  · rename_i kw name _ _ hstmts
    obtain ⟨hkw, hname⟩ := of_decide_eq_true h
    cases hstmts
    rw [hname]
    show Flow.Ast.mk [.block ⟨kw.node, Flow.Span.zero⟩ _ _ _] = _
    rw [hkw]
    rfl
  · cases h

def poolText : Sample (fun pool =>
    [pool, '\n' :: pool, pool ++ "# one pool\n".toList].all (fun text =>
      (Flow.parse text).toOption.any isPool && (compile (fun _ => none) text 0).toOption.isSome) &&
    (compile (fun _ => none) pool 0).toOption.map (fun c => snapshotId c.config) !=
      (compile (fun _ => none) ('\n' :: pool) 0).toOption.map (fun c => snapshotId c.config) &&
    (Flow.parse pool).toOption.map recorded == (Flow.parse (pool ++ "# one pool\n".toList)).toOption.map recorded) :=
  ⟨"upstream pool \x7b\x7d\n", by decide +kernel⟩

theorem pool_compiled {text : Str}
    (h : text ∈ [poolText.1, '\n' :: poolText, poolText ++ "# one pool\n"]) :
    ∃ ast compiled, Flow.parse text = .ok ast ∧ compile (fun _ => none) text 0 = .ok compiled ∧ isPool ast := by
  obtain ⟨⟨hcheck, -⟩, -⟩ := Bool.and_eq_true_iff.mp poolText.2 |>.imp_left Bool.and_eq_true_iff.mp
  obtain ⟨hpool, hok⟩ := Bool.and_eq_true_iff.mp (all_eq_true.mp hcheck text h)
  obtain ⟨ast, hast, hpool⟩ := (any_eq_true _ _).mp hpool
  obtain ⟨compiled, hcompiled⟩ := isSome_iff_exists.mp hok
  exact ⟨ast, compiled, toOption_eq_some.mp hast, toOption_eq_some.mp hcompiled, hpool⟩

/-- A blank line in front gives another identity. -/
theorem identity_moves : ∃ ast ast' compiled compiled', Flow.parse poolText = .ok ast ∧
    Flow.parse ('\n' :: poolText) = .ok ast' ∧ compile (fun _ => none) poolText 0 = .ok compiled ∧
    compile (fun _ => none) ('\n' :: poolText) 0 = .ok compiled' ∧ ast.erase = ast'.erase ∧
    snapshotId compiled.config ≠ snapshotId compiled'.config := by
  obtain ⟨⟨-, hids⟩, -⟩ := Bool.and_eq_true_iff.mp poolText.2 |>.imp_left Bool.and_eq_true_iff.mp
  obtain ⟨ast, compiled, hparse, hcomp, hpool⟩ := pool_compiled (mem_cons_self (a := poolText.1))
  obtain ⟨ast', compiled', hparse', hcomp', hpool'⟩ :=
    pool_compiled (mem_cons_of_mem _ mem_cons_self)
  refine ⟨ast, ast', compiled, compiled', hparse, hparse', hcomp, hcomp', ?_, ?_⟩
  · rw [erase_of_isPool hpool, erase_of_isPool hpool']
  · rw [hcomp, hcomp'] at hids
    exact fun heq => bne_iff_ne.mp hids (congrArg some heq)

/-- A comment behind does not. -/
theorem snapshot_identity_iff_comment : ∃ compiled compiled', compile (fun _ => none) poolText 0 = .ok compiled ∧
    compile (fun _ => none) (poolText ++ "# one pool\n".toList) 0 = .ok compiled' ∧
    snapshotId compiled.config = snapshotId compiled'.config := by
  obtain ⟨-, hrec⟩ := Bool.and_eq_true_iff.mp poolText.2
  obtain ⟨ast, compiled, hparse, hcomp, hpool⟩ := pool_compiled (mem_cons_self (a := poolText.1))
  obtain ⟨ast', compiled', hparse', hcomp', hpool'⟩ :=
    pool_compiled (mem_cons_of_mem _ (mem_cons_of_mem _ mem_cons_self))
  rw [hparse, hparse'] at hrec
  refine ⟨compiled, compiled', hcomp, hcomp', ?_⟩
  refine (snapshot_identity_iff _ _ _ 0 0 ast ast' _ _ hparse hparse' hcomp hcomp' ?_).mpr (.inl (Option.some.inj (beq_iff_eq.mp hrec)))
  rw [erase_of_isPool hpool, erase_of_isPool hpool']

end Pulsate.Conf
