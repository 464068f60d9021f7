import Pulsate.Config.Lemmas.Acceptance
import Pulsate.Flow.Lemmas.Sections
import Pulsate.K8s.Routing.Lemmas.Serve

/-!
# The sites of a text that compiles

A namespace is written without a check, so the upstreams of a translation can hold anything. The sites stand
below them, and if the text compiles at all they are read as they were written.
-/

namespace Pulsate.K8s

open List
open Pulsate.Flow (EndsLine blocksText typeAtom Stmt)
open Routing (SiteRoutes Router)

variable {managed : Lib.OrdMap (Str ×ₗ Str) Gateway} {routes : List HTTPRoute} {env : Str → Option Str}

/-! ## Lines -/

/-- Neither braces nor quotes. -/
def Tame (s : Str) : Prop := ∀ c ∈ s, c ≠ '{' ∧ c ≠ '}' ∧ c ≠ '"'

instance (s : Str) : Decidable (Tame s) :=
  decidable_of_iff (s.all (fun c => decide (c ≠ '{' ∧ c ≠ '}' ∧ c ≠ '"')))
    ⟨Str.forall_mem_of_all, Str.all_of_forall_mem⟩

theorem Tame.append {s t : Str} (hs : Tame s) (ht : Tame t) : Tame (s ++ t) := by
  intro c hc
  rcases mem_append.mp hc with hc | hc
  · exact hs c hc
  · exact ht c hc

theorem Plain.tame {s : Str} (h : Plain s) : Tame s := by
  intro c hc
  refine ⟨?_, ?_, ?_⟩ <;> rintro rfl <;> cases h _ hc

theorem tame_of_safe {s : Str} (h : hasUnsafeChar s = false) : Tame s := by
  intro c hc
  rw [hasUnsafeChar, any_eq_false] at h
  have := h c hc
  refine ⟨?_, ?_, ?_⟩ <;> rintro rfl <;> exact this rfl

theorem Entry.line_tame {e : Emitted} (he : e ∈ emitted managed routes) {n : Entry} (hn : n ∈ e.entries) :
    Tame n.line.text := by
  have hmethod := isMethod_of_entry he hn
  obtain ⟨m, hm, rfl⟩ := mem_map.mp hn
  have hpattern := tame_of_safe (matchPattern_safe (matchIsValid_of_emitted he m hm)).2
  rw [Entry.line_text]
  refine ((((Tame.append (by decide) ?_).append ?_).append (by decide)).append (plain_upName e).tame).append (by decide)
  · have hkind : (Entry.ofMatch e.upName m).kind = (matchPattern m).1 := rfl
    rw [hkind]
    cases (matchPattern m).1 with
    | Exact => exact Tame.append (by decide) hpattern
    | Prefix => exact hpattern
  · cases hs : (Entry.ofMatch e.upName m).method with
    | none => intro c hc; cases hc
    | some s =>
      exact (Tame.append (by decide) (hmethod s hs).plain.tame).append (by decide)

theorem tlsLine_tame (https : Bool) : Tame (tlsLine https).text := by
  have hauto : Tame (tlsLine true).text := by decide
  have hoff : Tame (tlsLine false).text := by decide
  cases https with
  | false => exact hoff
  | true => exact hauto

theorem siteDoc_isSection {host : Str} {s : SitePlan} (h : (host, s) ∈ (plan (placements managed routes)).sites.entries) :
    (siteDoc host s).IsSection "site" host := by
  obtain ⟨⟨p, hp, rfl⟩, rfl⟩ := mem_plan_sites.mp h
  obtain ⟨hplain, hne⟩ := (placement_host hp).plain
  refine ⟨rfl, rfl, hplain.isWord hne, ?_⟩
  intro l hl
  rcases mem_cons.mp hl with rfl | hl
  · exact tlsLine_tame _
  · obtain ⟨n, hn, rfl⟩ := mem_map.mp hl
    obtain ⟨⟨k, n⟩, hk, rfl⟩ := mem_map.mp hn
    obtain ⟨-, q, hq, -, hn⟩ := mem_sitePlan_routes hk
    exact Entry.line_tame (mem_placements.mp hq).1 hn

/-! ## Text -/

theorem text_ends_line (b : Flow.Block) : ∃ z, z.getLast? = some '\n' ∧ b.text = z ++ ['}'] := by
  have hclose : "\n\x7d" = "\n" ++ ['}'] := rfl
  unfold Flow.Block.text
  rw [hclose, ← append_assoc]
  exact ⟨_, by rw [getLast?_append_of_ne_nil _ (by decide)]; rfl, rfl⟩

theorem document_text_split {d : Flow.Document} {us ss : List Flow.Block} (hd : d.blocks = us ++ ss) (hus : us ≠ []) :
    ∃ z, EndsLine z ∧ d.text = z ++ '}' :: '\n' :: blocksText ss := by
  obtain rfl | ⟨init, b, rfl⟩ := eq_nil_or_concat us
  · exact absurd rfl hus
  · obtain ⟨z, hz, htext⟩ := text_ends_line b
    have hne : z ≠ [] := by
      rintro rfl
      cases hz
    have hbreak : "\n" = ['\n'] := rfl
    refine ⟨("#" ++ d.comment ++ "\n" ++ blocksText init ++ "\n") ++ z, .inr ?_, ?_⟩
    · rw [getLast?_append_of_ne_nil _ hne, hz]
    · rw [Flow.Document.text, hd, flatMap_append, concat_eq_append, flatMap_append, flatMap_cons, flatMap_nil, htext]
      simp only [blocksText, hbreak, append_assoc, cons_append, nil_append, append_nil]

theorem plan_upstreams_ne_nil {ps : List Placement} (h : (plan ps).sites.entries ≠ []) : (plan ps).upstreams.entries ≠ [] := by
  obtain ⟨⟨host, s⟩, he⟩ := exists_mem_of_ne_nil _ h
  obtain ⟨⟨p, hp, -⟩, -⟩ := mem_plan_sites.mp he
  have hmem : p.toEmitted.upName ∈ (plan ps).upstreams.keys :=
    Lib.OrdMap.mem_keys_insertAll_empty.mpr ⟨_, mem_map.mpr ⟨p, hp, rfl⟩⟩
  intro hnil
  rw [Lib.OrdMap.keys, hnil] at hmem
  cases hmem

theorem parse_sites {ast : Flow.Ast} (hparse : Flow.parse (plan (placements managed routes)).document.text = .ok ast) :
    ∃ s1 s2, ast.stmts = s1 ++ s2 ∧
      List.Forall₂ (Stmt.IsSection "site") s2 (plan (placements managed routes)).sites.keys := by
  by_cases hnil : (plan (placements managed routes)).sites.entries = []
  · rw [Lib.OrdMap.keys, hnil]
    exact ⟨ast.stmts, [], (append_nil _).symm, .nil⟩
  · have hus : (plan (placements managed routes)).upstreams.entries.map (fun e => upstreamDoc e.1 e.2) ≠ [] := by
      simpa using plan_upstreams_ne_nil hnil
    obtain ⟨z, hz, htext⟩ := document_text_split (d := (plan (placements managed routes)).document) rfl hus
    rw [htext] at hparse
    have hsections : List.Forall₂ (fun b name => b.IsSection "site" name)
        ((plan (placements managed routes)).sites.entries.map (fun e => siteDoc e.1 e.2))
        ((plan (placements managed routes)).sites.entries.map Prod.fst) := by
      rw [forall₂_map_left_iff, forall₂_map_right_iff, forall₂_same]
      exact fun e he => siteDoc_isSection he
    have hkw : Flow.IsKeyword "site" := by decide
    exact Flow.parse_sections hkw hz hsections (by simpa using hnil) hparse

/-! ## Sites -/

theorem lower_sections {s2 : List Stmt} {hosts : List Str} (h : List.Forall₂ (Stmt.IsSection "site") s2 hosts)
    (acc : Conf.Config × List Flow.Diagnostic) :
    ∃ gen, (s2.foldl (Conf.lowerStmt env) acc).1.sites = acc.1.sites ++ gen ∧
      List.Forall₂ (fun site host => site.hosts.map (·.pattern) = readHosts host) gen hosts := by
  induction h generalizing acc with
  | nil => exact ⟨[], (append_nil _).symm, .nil⟩
  | @cons s host s2 hosts hs _ ih =>
    obtain ⟨kspan, aspan, body, span, rfl⟩ := hs
    obtain ⟨c, ds⟩ := acc
    rw [foldl_cons, Conf.lowerStmt_site rfl]
    obtain ⟨gen, hgen, hall⟩ := ih _
    refine ⟨(Conf.lowerSite [.positional ⟨typeAtom host, aspan⟩] body span).1 :: gen, ?_, .cons ?_ hall⟩
    · rw [hgen, append_assoc, singleton_append]
    · rw [Conf.lowerSite_hosts]
      exact lowerHost_typeAtom _ _

theorem compile_sites {classes : List GatewayClass} {gateways : List Gateway} {controllerName : Str} {g : Nat}
    {compiled : Conf.Compiled} (h : Conf.compile env (toFlow classes gateways routes controllerName) g = .ok compiled) :
    ∃ pre gen, (Conf.buildRouter compiled.config).sites = pre ++ gen ∧
      List.Forall₂ (fun site host => site.hosts = readHosts host) gen
        (plan (placements (managedGateways classes gateways controllerName) routes)).sites.keys := by
  obtain ⟨ast, hparse, hcompiled, -⟩ := Conf.compile_inv h
  have hconfig : compiled.config = (Conf.lower env ast).1 := congrArg Conf.Compiled.config hcompiled
  rw [toFlow_eq] at hparse
  obtain ⟨s1, s2, hstmts, hs2⟩ := parse_sites hparse
  rw [Conf.lower, hstmts, foldl_append] at hconfig
  obtain ⟨gen, hgen, hall⟩ := @lower_sections env _ _ hs2 (s1.foldl (Conf.lowerStmt env) (Conf.Config.empty, []))
  rw [Conf.buildRouter]
  simp only [hconfig, hgen, map_append]
  refine ⟨_, _, rfl, ?_⟩
  rw [forall₂_map_left_iff]
  exact hall

theorem patterns_buildRouter (config : Conf.Config) :
    (config.sites.flatMap (·.hosts)).map (·.pattern) = (Conf.buildRouter config).sites.flatMap (·.hosts) := by
  rw [Conf.buildRouter, map_flatMap, flatMap_map]

/-- Pairs each host with one of the last sites, in order. -/
def writtenSites (hosts : List Str) (sites : List SiteRoutes) : List (Str × SiteRoutes) :=
  hosts.zip (sites.drop (sites.length - hosts.length))

section Written

variable {R : SiteRoutes → Str → Prop} {gen : List SiteRoutes} {hosts : List Str} {host : Str}

theorem writtenSites_append (pre : List SiteRoutes) (h : gen.length = hosts.length) :
    writtenSites hosts (pre ++ gen) = hosts.zip gen := by
  rw [writtenSites, length_append, h, Nat.add_sub_cancel, drop_left]

theorem mem_writtenSites (pre : List SiteRoutes) (h : List.Forall₂ R gen hosts) (hh : host ∈ hosts) :
    ∃ site, (host, site) ∈ writtenSites hosts (pre ++ gen) := by
  rw [writtenSites_append pre h.length_eq]
  induction h with
  | nil => cases hh
  | cons _ _ ih =>
    rcases mem_cons.mp hh with rfl | hh
    · exact ⟨_, mem_cons_self⟩
    · obtain ⟨site, hs⟩ := ih hh
      exact ⟨site, mem_cons_of_mem _ hs⟩

theorem writtenSites_cases {pre : List SiteRoutes} {site : SiteRoutes} (h : List.Forall₂ R gen hosts)
    (hs : (host, site) ∈ writtenSites hosts (pre ++ gen)) : site ∈ gen ∧ R site host := by
  rw [writtenSites_append pre h.length_eq] at hs
  induction h with
  | nil => cases hs
  | cons hR _ ih =>
    rcases mem_cons.mp hs with he | hs
    · cases he
      exact ⟨mem_cons_self, hR⟩
    · obtain ⟨hmem, hR'⟩ := ih hs
      exact ⟨mem_cons_of_mem _ hmem, hR'⟩

end Written

end Pulsate.K8s
