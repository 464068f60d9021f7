import Pulsate.Config.Lemmas.Settings
import Pulsate.Config.Lemmas.Steps
import Pulsate.Waf.Lemmas.Acl

/-!
# Address lists through lowering and building
-/

namespace Pulsate.Conf

open List Option
open Pulsate.Flow (Ast Directive Step Stmt Value)
open Routing (Mw)

variable {env : Str → Option Str} {ast : Ast} {rt : Flow.Route} {r : Routing.Route} {b : Block} {ip : IpAddr}

/-! ## Ranges -/

theorem rangeOf_eq (v : Value) : rangeOf v = (asStr v).bind Waf.Cidr.parse := by
  cases v <;> rfl

theorem filterMap_parse_strItems (v : Option Value) :
    (strItems v).filterMap Waf.Cidr.parse = ((v.map arrayItems).getD []).filterMap rangeOf := by
  cases v with
  | none => rfl
  | some v =>
    cases v with
    | array items =>
      simp only [strItems, map_some, getD_some, arrayItems, filterMap_filterMap, filterMap_map]
      exact congrArg (fun f => List.filterMap f items) (funext (fun i => (rangeOf_eq i.node).symm))
    | _ => rfl

theorem foldl_updStrs (ds : List Directive) :
    ds.foldl updStrs [] = strItems (ds.getLast?.bind (fun d => firstPositional d.args)) := by
  rcases eq_nil_or_concat ds with rfl | ⟨front, d, rfl⟩
  · rfl
  · rw [concat_eq_append, foldl_append, getLast?_concat]
    rfl

theorem ranges_allow (b : Block) : (lowerWafBlock b).ipAllow.filterMap Waf.Cidr.parse = b.ranges "allow" := by
  rw [lowerWafBlock, lowerWaf_rules _ _ _ lowerIpRules_allow (fun _ _ => rfl)]
  exact (congrArg _ (foldl_updStrs _)).trans (filterMap_parse_strItems _)

theorem ranges_deny (b : Block) : (lowerWafBlock b).ipDeny.filterMap Waf.Cidr.parse = b.ranges "deny" := by
  rw [lowerWafBlock, lowerWaf_rules _ _ _ lowerIpRules_deny (fun _ _ => rfl)]
  exact (congrArg _ (foldl_updStrs _)).trans (filterMap_parse_strItems _)

theorem mem_of_firstPositional {args : List Flow.Arg} {v : Value} (h : firstPositional args = some v) :
    ∃ a ∈ args, (argValue a).node = v := by
  obtain ⟨a, ha, hv⟩ := exists_of_findSome?_eq_some h
  cases a with
  | positional value =>
    cases hv
    exact ⟨_, ha, rfl⟩
  | named name value => cases hv

theorem mem_itemsOf_of_mem_arrayItems {v item : Value} (h : item ∈ arrayItems v) : item ∈ itemsOf v := by
  cases v with
  | array items => exact h
  | _ => exact absurd h not_mem_nil

theorem mem_ranges_allow {c : Waf.Cidr} (h : c ∈ b.ranges "allow") : ∃ v ∈ b.allowEntries, rangeOf v = some c := by
  obtain ⟨v, hv, hc⟩ := mem_filterMap.mp h
  refine ⟨v, ?_, hc⟩
  cases hlast : lastValue ["allow"] (ipRules b.body) with
  | none =>
    rw [hlast] at hv
    exact absurd hv not_mem_nil
  | some last =>
    rw [hlast] at hv
    obtain ⟨d, hd, hfirst⟩ := bind_eq_some_iff.mp hlast
    obtain ⟨a, ha, rfl⟩ := mem_of_firstPositional hfirst
    refine mem_flatMap.mpr ⟨d, mem_of_getLast? hd, mem_flatMap.mpr ⟨a, ha, ?_⟩⟩
    exact mem_itemsOf_of_mem_arrayItems hv

/-! ## Lists -/

theorem turnsAway_iff : b.TurnsAway ip ↔ ∃ acl,
    buildIpAcl (lowerWafBlock b).ipDeny (lowerWafBlock b).ipAllow = some acl ∧ (acl.check ip).isSome := by
  have hallow := ranges_allow b
  have hdeny := ranges_deny b
  unfold buildIpAcl
  rw [hallow, hdeny, Block.TurnsAway]
  by_cases hnone : b.ranges "allow" = [] ∧ b.ranges "deny" = []
  · rw [if_pos hnone.1, hnone.2]
    dsimp only
    rw [if_pos ⟨hnone.1, rfl⟩]
    refine iff_of_false ?_ ?_
    · rintro ⟨c, hc, -⟩
      cases hc
    · rintro ⟨acl, hacl, -⟩
      cases hacl
  · dsimp only
    rw [if_neg hnone]
    constructor
    · intro hagainst
      exact ⟨_, rfl, (Waf.check_isSome_iff _ ip).mpr hagainst⟩
    · rintro ⟨acl, hacl, hcheck⟩
      cases hacl
      exact (Waf.check_isSome_iff _ ip).mp hcheck

/-- The block of a name is the only one. -/
theorem find?_of_nodup (hnodup : (wafNames ast).Nodup) (hb : b ∈ blocks "waf" ast.stmts) :
    (blocks "waf" ast.stmts).find? (fun b' => b'.name = b.name) = some b := by
  have hfound : ((blocks "waf" ast.stmts).find? (fun b' => b'.name = b.name)).isSome :=
    find?_isSome.mpr ⟨b, hb, decide_eq_true rfl⟩
  obtain ⟨b', hb'⟩ := isSome_iff_exists.mp hfound
  have hname : b'.name = b.name := of_decide_eq_true (find?_some (p := fun b' : Block => decide (b'.name = b.name)) hb')
  rw [hb', inj_on_of_nodup_map hnodup (mem_of_find?_eq_some hb') hb hname]

theorem ip_mem_iff {list : Option Waf.IpAcl} {engine : Waf.WafEngine} {acl : Waf.IpAcl} :
    .ip acl ∈ (list.map Mw.ip).toList ++ [.waf engine] ↔ list = some acl := by
  cases list with
  | none => simp
  | some a => simp [eq_comm]

theorem mem_middleware_ip (hnodup : (wafNames ast).Nodup) (hr : builtRoute (lower env ast).1 rt = some r) {acl : Waf.IpAcl} :
    .ip acl ∈ r.middleware ↔ ∃ s ∈ rt.steps, ∃ b ∈ blocks "waf" ast.stmts, Asks s (.waf b.name) ∧
      buildIpAcl (lowerWafBlock b).ipDeny (lowerWafBlock b).ipAllow = some acl := by
  obtain ⟨handler, -, rfl⟩ := map_eq_some_iff.mp hr
  simp only [mem_flatMap, mwSpecs_lowerRoute, mem_filterMap]
  constructor
  · rintro ⟨spec, ⟨s, hs, hspec⟩, hacl⟩
    cases spec with
    | waf name =>
      rw [buildMw, waf_lower] at hacl
      cases hfind : (blocks "waf" ast.stmts).find? (fun b => b.name = name) with
      | none =>
        rw [hfind] at hacl
        exact absurd hacl not_mem_nil
      | some b =>
        rw [hfind] at hacl
        have hname : b.name = name := of_decide_eq_true (find?_some (p := fun b : Block => decide (b.name = name)) hfind)
        refine ⟨s, hs, b, mem_of_find?_eq_some hfind, hname ▸ asks_of_buildMiddleware hspec, ?_⟩
        exact ip_mem_iff.mp hacl
    | stripPrefix p => cases mem_singleton.mp hacl
    | cors origins methods credentials => cases mem_singleton.mp hacl
    | rateLimit count perSecs key => cases mem_singleton.mp hacl
    | cache name => cases hacl
  · rintro ⟨s, hs, b, hb, hasks, hacl⟩
    refine ⟨.waf b.name, ⟨s, hs, buildMiddleware_eq_some.mpr hasks⟩, ?_⟩
    rw [buildMw, waf_lower, find?_of_nodup hnodup hb]
    exact ip_mem_iff.mpr hacl

theorem blocked_iff (hnodup : (wafNames ast).Nodup) (hr : builtRoute (lower env ast).1 rt = some r) :
    (∃ acl, .ip acl ∈ r.middleware ∧ (acl.check ip).isSome) ↔
      ∃ s ∈ rt.steps, ∃ b ∈ blocks "waf" ast.stmts, Asks s (.waf b.name) ∧ b.TurnsAway ip := by
  constructor
  · rintro ⟨acl, hacl, hcheck⟩
    obtain ⟨s, hs, b, hb, hasks, hbuilt⟩ := (mem_middleware_ip hnodup hr).mp hacl
    exact ⟨s, hs, b, hb, hasks, turnsAway_iff.mpr ⟨acl, hbuilt, hcheck⟩⟩
  · rintro ⟨s, hs, b, hb, hasks, hagainst⟩
    obtain ⟨acl, hbuilt, hcheck⟩ := turnsAway_iff.mp hagainst
    exact ⟨acl, (mem_middleware_ip hnodup hr).mpr ⟨s, hs, b, hb, hasks, hbuilt⟩, hcheck⟩

theorem turnsAway_of_outside (hranges : b.ranges "allow" ≠ []) (hout : b.Outside ip) : b.TurnsAway ip := by
  rw [Block.TurnsAway, if_neg hranges]
  intro c hc
  obtain ⟨v, hv, hrange⟩ := mem_ranges_allow hc
  exact hout v hv c hrange

end Pulsate.Conf
